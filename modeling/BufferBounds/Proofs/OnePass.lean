import BufferBounds.Proofs.Stability
import BufferBounds.Proofs.Limits
import BufferBounds.Proofs.SearchOrder

/-!
# Functions without loops

Where there are no loops every edge leads to a later place, so the propagation goes through the order
once: when it comes to a block all that arrives there is known, and nothing that it finds later
arrives at an earlier block. The invariant `Swept` says so of the places in front of the one that is
visited next. The stores that are found so solve the equations of the flow graph exactly, and no
other stores do.
-/

namespace BufferBounds

/-! ## Pending places -/

/-- A place that is pending already is not put in again. -/
theorem enqueue_of_mem {place : Nat} {places : List Nat} (hsorted : places.Pairwise (· < ·))
    (h : place ∈ places) : enqueue place places = places := by
  induction places with
  | nil => cases h
  | cons first rest ih =>
    obtain ⟨hfirst, hrest⟩ := List.pairwise_cons.mp hsorted
    rw [enqueue]
    rcases List.mem_cons.mp h with rfl | hmem
    · rw [if_neg (Nat.lt_irrefl _), if_pos rfl]
    · have hlt := hfirst place hmem
      rw [if_neg (Nat.not_lt.mpr (Nat.le_of_lt hlt)), if_neg (Nat.ne_of_gt hlt), ih hrest hmem]

theorem foldl_enqueue_of_subset {new places : List Nat} (hsorted : places.Pairwise (· < ·))
    (h : new ⊆ places) :
    new.foldl (fun pending place => enqueue place pending) places = places := by
  induction new with
  | nil => rfl
  | cons place new ih =>
    obtain ⟨hplace, hnew⟩ := List.cons_subset.mp h
    rw [List.foldl_cons, enqueue_of_mem hsorted hplace]
    exact ih hnew

/-! ## The equations -/

namespace Flow

variable {g : Flow} {settings : Settings} {entries exits entries' exits' : Table Store}

/-- The stores solve the equations of the flow graph: the entry store of a block is the join of what
arrives there, its exit store is what it makes of the entry store, and only blocks that can be
reached have any. -/
structure Solves (g : Flow) (settings : Settings) (entries exits : Table Store) : Prop where
  /-- what arrives at a block is its entry store -/
  entry_eq : ∀ b ∈ g.order, entries[b.id]? = g.incomingStore? settings exits b.id
  /-- running a block from its entry store gives its exit store -/
  exit_eq : ∀ b ∈ g.order, exits[b.id]? = entries[b.id]?.map (b.transfer settings)
  /-- only blocks that can be reached have an entry store -/
  reachable_of_mem_entries : ∀ id ∈ entries, g.function.Reachable id
  /-- only blocks that can be reached have an exit store -/
  reachable_of_mem_exits : ∀ id ∈ exits, g.function.Reachable id

theorem places_of_targets (hacyclic : g.function.Acyclic) {b : Block} {place : Nat}
    (hb : g.order[place]? = some b) {target : Nat} (ht : target ∈ g.targetPlaces b) :
    place < target ∧ target < g.order.length := by
  obtain ⟨id, hid, htarget⟩ := List.mem_filterMap.mp ht
  obtain ⟨c, hc, rfl⟩ := block_of_position? htarget
  exact ⟨place_lt_of_acyclic hacyclic hb hc hid, (List.getElem?_eq_some_iff.mp hc).1⟩

/-- What arrives at a block depends only on the exit stores at earlier places. -/
theorem incomingStore?_of_acyclic (hacyclic : g.function.Acyclic) {b : Block} {place : Nat}
    (hb : g.order[place]? = some b)
    (hbefore : ∀ i c, i < place → g.order[i]? = some c → exits[c.id]? = exits'[c.id]?)
    (houtside : ∀ id, ¬ g.function.Reachable id → exits[id]? = exits'[id]?) :
    g.incomingStore? settings exits b.id = g.incomingStore? settings exits' b.id := by
  apply incomingStore?_congr
  intro c hc ht
  by_cases hreach : g.function.Reachable c.id
  · obtain ⟨i, hi⟩ := List.mem_iff_getElem?.mp (mem_order_iff.mpr ⟨hc, hreach⟩)
    exact hbefore i c (place_lt_of_acyclic hacyclic hi hb ht) hi
  · exact houtside c.id hreach

namespace Solves

theorem getElem?_exits_of_not_reachable (h : g.Solves settings entries exits) {id : String}
    (hid : ¬ g.function.Reachable id) : exits[id]? = none :=
  Std.ExtTreeMap.getElem?_eq_none fun hmem => hid (h.reachable_of_mem_exits id hmem)

theorem getElem?_entries_of_not_reachable (h : g.Solves settings entries exits) {id : String}
    (hid : ¬ g.function.Reachable id) : entries[id]? = none :=
  Std.ExtTreeMap.getElem?_eq_none fun hmem => hid (h.reachable_of_mem_entries id hmem)

/-- Two solutions agree at every place, as they do at the places before. -/
theorem getElem?_eq (hacyclic : g.function.Acyclic) (h : g.Solves settings entries exits)
    (h' : g.Solves settings entries' exits') {place : Nat} {b : Block}
    (hb : g.order[place]? = some b) :
    entries[b.id]? = entries'[b.id]? ∧ exits[b.id]? = exits'[b.id]? := by
  induction place using Nat.strong_induction_on generalizing b with
  | _ place ih =>
    have hmem := List.mem_of_getElem? hb
    have hentry : entries[b.id]? = entries'[b.id]? := by
      rw [h.entry_eq b hmem, h'.entry_eq b hmem]
      apply incomingStore?_of_acyclic hacyclic hb
      · intro i c hi hc
        exact (ih i hi hc).2
      · intro id hid
        rw [h.getElem?_exits_of_not_reachable hid, h'.getElem?_exits_of_not_reachable hid]
    refine ⟨hentry, ?_⟩
    rw [h.exit_eq b hmem, h'.exit_eq b hmem, hentry]

/-- Without loops the equations have one solution at most. -/
theorem unique (hacyclic : g.function.Acyclic) (h : g.Solves settings entries exits)
    (h' : g.Solves settings entries' exits') : entries = entries' ∧ exits = exits' := by
  have hall : ∀ id : String, entries[id]? = entries'[id]? ∧ exits[id]? = exits'[id]? := by
    intro id
    by_cases hid : g.function.Reachable id
    · obtain ⟨b, hb, rfl⟩ := List.mem_map.mp (mem_orderIds_iff.mpr hid)
      obtain ⟨place, hplace⟩ := List.mem_iff_getElem?.mp hb
      exact h.getElem?_eq hacyclic h' hplace
    · rw [h.getElem?_entries_of_not_reachable hid, h'.getElem?_entries_of_not_reachable hid,
        h.getElem?_exits_of_not_reachable hid, h'.getElem?_exits_of_not_reachable hid]
      exact ⟨rfl, rfl⟩
  exact ⟨Std.ExtTreeMap.ext_getElem? fun id => (hall id).1,
    Std.ExtTreeMap.ext_getElem? fun id => (hall id).2⟩

end Solves

end Flow

/-! ## The invariant -/

namespace Progress

variable {g : Flow} {settings : Settings} {p q : Progress g} {k : Nat} {b : Block}

/-- The places before `k` are done with, and those from `k` on were not touched yet. -/
structure Swept (settings : Settings) (p : Progress g) (k : Nat) : Prop where
  /-- the stores fit together -/
  consistent : Consistent settings p
  /-- the places from `k` on are to be visited -/
  pending : p.pending = List.range' k (g.order.length - k)
  /-- what arrives at a block before `k` is its entry store -/
  entry_eq : ∀ i c, i < k → g.order[i]? = some c →
    p.entries[c.id]? = g.incomingStore? settings p.exits c.id
  /-- a block from `k` on has no entry store -/
  entry_eq_none : ∀ i c, k ≤ i → g.order[i]? = some c → p.entries[c.id]? = none
  /-- nothing was widened -/
  widened : p.widened = []
  /-- every block with an entry store was run once -/
  transfers : p.transfers = p.entries.size

namespace Swept

theorem start (g : Flow) (settings : Settings) : Swept settings (start g) 0 where
  consistent := Consistent.start g settings
  pending := List.range_eq_range'
  entry_eq i c hi := absurd hi (Nat.not_lt_zero i)
  entry_eq_none i c _ _ := by simp [Progress.start]
  widened := rfl
  transfers := by simp [Progress.start]

theorem pending_eq_cons (h : Swept settings p k) (hk : k < g.order.length) :
    p.pending = k :: List.range' (k + 1) (g.order.length - (k + 1)) := by
  obtain ⟨rest, hrest⟩ : ∃ rest, g.order.length - k = rest + 1 := ⟨g.order.length - k - 1, by omega⟩
  have hrest' : g.order.length - (k + 1) = rest := by omega
  rw [h.pending, hrest, hrest', List.range'_succ]

/-- The next step either leaves the block at `k`, where nothing arrives, or runs it for the first
time from what arrives. -/
theorem step_cases (h : Swept settings p k) (hb : g.order[k]? = some b)
    (hstep : Stepped settings p q) :
    let pending := List.range' (k + 1) (g.order.length - (k + 1))
    (g.incomingStore? settings p.exits b.id = none ∧ q = p.awaiting pending) ∨
      ∃ incoming, ∃ hmem : b ∈ g.order, ∃ hwithin : incoming.Within g.assigned,
        g.incomingStore? settings p.exits b.id = some incoming ∧
        q = (p.awaiting pending).run settings b hmem incoming hwithin := by
  have hcons := h.pending_eq_cons (List.getElem?_eq_some_iff.mp hb).1
  have hnone := h.entry_eq_none k b (Nat.le_refl k) hb
  cases hstep with
  | idle hpending hsettled =>
    obtain ⟨rfl, rfl⟩ := List.cons.inj (hpending.symm.trans hcons)
    left
    cases hincoming : g.incomingStore? settings p.exits b.id with
    | none => exact ⟨rfl, rfl⟩
    | some incoming =>
      obtain ⟨old, hold, -⟩ := hsettled b incoming hb hincoming
      rw [hnone] at hold
      cases hold
  | @run place pending c incoming entry r hpending hplace hincoming hrenewal hmem hentry =>
    obtain ⟨rfl, rfl⟩ := List.cons.inj (hpending.symm.trans hcons)
    obtain rfl : c = b := Option.some.inj (hplace.symm.trans hb)
    right
    -- a block without an entry store is visited for the first time
    have hfirst : ∀ old, p.entries[c.id]? = some old → False := by
      intro old hold
      rw [hnone] at hold
      cases hold
    cases hrenewal with
    | first hold => exact ⟨incoming, hmem, hentry, hincoming, rfl⟩
    | plain hold hne hheader => exact (hfirst _ hold).elim
    | counted hold hne hheader hcap => exact (hfirst _ hold).elim
    | widened hold hne hheader hcap => exact (hfirst _ hold).elim

/-- A step leaves the stores of all blocks but the one at `k`. -/
theorem getElem?_entries_of_ne (h : Swept settings p k) (hk : k < g.order.length)
    (hstep : Stepped settings p q) {i : Nat} (hi : g.order[i]? = some b) (hne : i ≠ k) :
    q.entries[b.id]? = p.entries[b.id]? := by
  have hplace := List.getElem?_eq_getElem hk
  rcases h.step_cases hplace hstep with ⟨-, rfl⟩ | ⟨incoming, hmem, hwithin, -, rfl⟩
  · rfl
  · rw [getElem?_entries_run, if_neg]
    · rfl
    · intro hid
      exact hne (Flow.place_eq_of_id_eq hi hplace hid.symm)

/-- Running the block at `k` makes no place pending that was not. -/
theorem pending_run (hacyclic : g.function.Acyclic) (hb : g.order[k]? = some b)
    (hpending : p.pending = List.range' (k + 1) (g.order.length - (k + 1))) {hmem : b ∈ g.order}
    {entry : Store} {hentry : entry.Within g.assigned} :
    (p.run settings b hmem entry hentry).pending = p.pending := by
  rw [run]
  simp only
  split
  · rfl
  · rw [hpending]
    apply foldl_enqueue_of_subset List.pairwise_lt_range'
    intro target ht
    have hplaces := Flow.places_of_targets hacyclic hb ht
    rw [List.mem_range'_1]
    omega

/-- The new exit store of the block at `k` arrives nowhere at `k` or before. -/
theorem incomingStore?_run (hacyclic : g.function.Acyclic) (hb : g.order[k]? = some b)
    {hmem : b ∈ g.order} {entry : Store} {hentry : entry.Within g.assigned} {i : Nat} {c : Block}
    (hi : i ≤ k) (hc : g.order[i]? = some c) :
    g.incomingStore? settings (p.run settings b hmem entry hentry).exits c.id =
      g.incomingStore? settings p.exits c.id := by
  apply Flow.incomingStore?_congr
  intro d hd ht
  rw [getElem?_exits_run, if_neg]
  intro hid
  obtain rfl := g.wellFormed.eq_of_id_eq (Flow.mem_blocks_of_mem_order hmem) hd hid
  have hlt := Flow.place_lt_of_acyclic hacyclic hb hc ht
  omega

theorem step (hacyclic : g.function.Acyclic) (h : Swept settings p k) (hk : k < g.order.length)
    (hstep : Stepped settings p q) : Swept settings q (k + 1) := by
  have hb := List.getElem?_eq_getElem hk
  have hconsistent := h.consistent.step hstep
  have hnone := h.entry_eq_none k _ (Nat.le_refl k) hb
  have hahead : ∀ i c, k + 1 ≤ i → g.order[i]? = some c → q.entries[c.id]? = none := by
    intro i c hi hc
    rw [h.getElem?_entries_of_ne hk hstep hc (Nat.ne_of_gt hi)]
    exact h.entry_eq_none i c (Nat.le_of_succ_le hi) hc
  have hearlier : ∀ i c, i < k → g.order[i]? = some c →
      q.entries[c.id]? = g.incomingStore? settings p.exits c.id := by
    intro i c hi hc
    rw [h.getElem?_entries_of_ne hk hstep hc (Nat.ne_of_lt hi)]
    exact h.entry_eq i c hi hc
  rcases h.step_cases hb hstep with ⟨hidle, rfl⟩ | ⟨incoming, hmem, hwithin, hincoming, rfl⟩
  · refine ⟨hconsistent, rfl, ?_, hahead, h.widened, h.transfers⟩
    intro i c hi hc
    rcases Nat.lt_succ_iff_lt_or_eq.mp hi with hlt | rfl
    · exact hearlier i c hlt hc
    · obtain rfl := Option.some.inj (hb.symm.trans hc)
      exact hnone.trans hidle.symm
  · refine ⟨hconsistent, pending_run hacyclic hb rfl, ?_, hahead, h.widened, ?_⟩
    · intro i c hi hc
      rw [incomingStore?_run hacyclic hb (Nat.le_of_lt_succ hi) hc]
      rcases Nat.lt_succ_iff_lt_or_eq.mp hi with hlt | rfl
      · exact hearlier i c hlt hc
      · obtain rfl := Option.some.inj (hb.symm.trans hc)
        rw [getElem?_entries_run, if_pos rfl]
        exact hincoming.symm
    · -- the block had no entry store, so now there is one more
      have hsize := Std.ExtTreeMap.size_insert (t := p.entries) (k := g.order[k].id)
        (v := incoming)
      rw [if_neg, ← h.transfers] at hsize
      · exact hsize.symm
      · rw [Std.ExtTreeMap.contains_eq_isSome_getElem?, hnone]
        exact Bool.false_ne_true

end Swept

/-- As long as there is a place left the next step is a step. -/
theorem stepped_of_swept (h : Swept settings ((start g).advance settings k) k)
    (hk : k < g.order.length) :
    Stepped settings ((start g).advance settings k) ((start g).advance settings (k + 1)) := by
  apply stepped_advance_of_pending
  rw [h.pending_eq_cons hk]
  exact List.cons_ne_nil _ _

/-- After `k` steps the places before `k` are done with. -/
theorem swept_advance (hacyclic : g.function.Acyclic) (settings : Settings)
    (hk : k ≤ g.order.length) : Swept settings ((start g).advance settings k) k := by
  induction k with
  | zero => exact Swept.start g settings
  | succ k ih =>
    have hswept := ih (Nat.le_of_succ_le hk)
    exact hswept.step hacyclic hk (stepped_of_swept hswept hk)

/-- The propagation ends after one step for every place. -/
theorem finish_eq_advance (hacyclic : g.function.Acyclic) (settings : Settings) :
    (start g).finish settings = (start g).advance settings g.order.length := by
  obtain ⟨n, hfinish, hnil, hpending⟩ := (start g).exists_finish_eq_advance settings
  have hend := (swept_advance hacyclic settings (Nat.le_refl g.order.length)).pending
  rw [Nat.sub_self] at hend
  rcases Nat.lt_trichotomy n g.order.length with hlt | rfl | hgt
  · rw [(swept_advance hacyclic settings (Nat.le_of_lt hlt)).pending_eq_cons hlt] at hnil
    cases hnil
  · exact hfinish
  · exact absurd hend (hpending _ hgt)

theorem swept_finish (hacyclic : g.function.Acyclic) (settings : Settings) :
    Swept settings ((start g).finish settings) g.order.length := by
  rw [finish_eq_advance hacyclic]
  exact swept_advance hacyclic settings (Nat.le_refl _)

/-- The entry store of a block is not touched after the step that visits it. -/
theorem getElem?_entries_advance (hacyclic : g.function.Acyclic) (settings : Settings) {i n : Nat}
    (hb : g.order[i]? = some b) (hlt : i < n) (hle : n ≤ g.order.length) :
    ((start g).advance settings n).entries[b.id]? =
      ((start g).advance settings (i + 1)).entries[b.id]? := by
  induction n, hlt using Nat.le_induction with
  | base => rfl
  | succ n hn ih =>
    have hlen : n < g.order.length := hle
    have hswept := swept_advance hacyclic settings (Nat.le_of_lt hlen)
    rw [hswept.getElem?_entries_of_ne hlen (stepped_of_swept hswept hlen) hb (Nat.ne_of_lt hn)]
    exact ih (Nat.le_of_lt hlen)

/-! ## Runs of a block -/

/-- The next step visits the block and runs it. -/
def Runs (settings : Settings) (p : Progress g) (b : Block) : Prop :=
  ∃ place q, p.pending.head? = some place ∧ g.order[place]? = some b ∧
    p.step? settings = some q ∧ q.transfers = p.transfers + 1

/-- A reached block is run in one step only, the one that visits its place. -/
theorem existsUnique_runs (hacyclic : g.function.Acyclic) (hb : b ∈ g.order)
    (hreached : b.id ∈ ((start g).finish settings).entries) :
    ∃! n, Runs settings ((start g).advance settings n) b := by
  obtain ⟨i, hi⟩ := List.mem_iff_getElem?.mp hb
  have hlen := (List.getElem?_eq_some_iff.mp hi).1
  have hswept := swept_advance hacyclic settings (Nat.le_of_lt hlen)
  have hcons := hswept.pending_eq_cons hlen
  refine ⟨i, ?_, ?_⟩
  · obtain ⟨q, hq⟩ : ∃ q, ((start g).advance settings i).step? settings = some q := by
      apply Option.ne_none_iff_exists'.mp
      rw [Ne, step?_eq_none_iff, hcons]
      exact List.cons_ne_nil _ _
    refine ⟨i, q, by rw [hcons]; rfl, hi, hq, ?_⟩
    have hnext : (start g).advance settings (i + 1) = q := by
      rw [advance_succ, hq, Option.getD_some]
    rcases hswept.step_cases hi (stepped_of_step? hq) with ⟨-, rfl⟩ | ⟨incoming, _, _, -, rfl⟩
    · -- a block that is not run now never gets an entry store
      exfalso
      obtain ⟨s, hs⟩ := Table.mem_iff_exists.mp hreached
      rw [finish_eq_advance hacyclic,
        getElem?_entries_advance hacyclic settings hi hlen (Nat.le_refl _), hnext] at hs
      have hnone := hswept.entry_eq_none i b (Nat.le_refl i) hi
      cases hnone.symm.trans hs
    · rfl
  · rintro n ⟨place, q, hplace, hblock, -, -⟩
    have hlt : n < g.order.length := by
      by_contra hge
      have hend := (swept_advance hacyclic settings (Nat.le_refl g.order.length)).pending
      rw [Nat.sub_self] at hend
      rw [advance_of_le hend (Nat.not_lt.mp hge), hend] at hplace
      cases hplace
    rw [(swept_advance hacyclic settings (Nat.le_of_lt hlt)).pending_eq_cons hlt] at hplace
    obtain rfl : n = place := Option.some.inj hplace
    exact Flow.place_eq_of_id_eq hblock hi rfl

end Progress

/-! ## The solution -/

namespace Flow

section

variable {g : Flow} (hacyclic : g.function.Acyclic) (settings : Settings)
include hacyclic

theorem solves_propagate :
    g.Solves settings (g.propagate settings).entries (g.propagate settings).exits where
  entry_eq := by
    intro b hb
    obtain ⟨place, hplace⟩ := List.mem_iff_getElem?.mp hb
    have hlen := (List.getElem?_eq_some_iff.mp hplace).1
    exact (Progress.swept_finish hacyclic settings).entry_eq place b hlen hplace
  exit_eq := by
    intro b hb
    cases hentry : (g.propagate settings).entries[b.id]? with
    | none =>
      apply Std.ExtTreeMap.getElem?_eq_none
      rw [← mem_entries_iff, Table.mem_iff_exists, hentry]
      exact nofun
    | some entry => exact exits_eq_transfer (mem_blocks_of_mem_order hb) hentry
  reachable_of_mem_entries := by
    intro id hid
    exact reachable_of_mem_entries hid
  reachable_of_mem_exits := by
    intro id hid
    exact reachable_of_mem_entries (mem_entries_iff.mpr hid)

theorem propagate_of_acyclic (cap : UInt64) :
    g.propagate { settings with maxFixpointIterations := cap } = g.propagate settings := by
  let limited : Settings := { settings with maxFixpointIterations := cap }
  have hnil := (Progress.swept_finish hacyclic settings).widened
  have hnil' := (Progress.swept_finish hacyclic limited).widened
  have hallocators : limited.allocators = settings.allocators := rfl
  rcases UInt64.le_total settings.maxFixpointIterations cap with hle | hle
  · exact propagate_of_finish_eq hallocators (Progress.finish_raise hle hnil)
  · have hback : limited.maxFixpointIterations ≤ settings.maxFixpointIterations := hle
    exact propagate_of_finish_eq hallocators (Progress.finish_raise hback hnil').symm

end

/-- **Functions without loops are solved in one pass.** Let no path lead from a reachable block back
to it. Then, whatever the settings, every reached block is run in exactly one step, so there are as
many runs as reached blocks, and nothing is widened. A block that can be reached is reached exactly if
it is the entry or something arrives there at the end, and what arrives there is its entry store. The
stores are the one solution of the equations of the flow graph, and the limit of changes does not
matter. -/
theorem solved_in_one_pass {g : Flow} (hacyclic : g.function.Acyclic) (settings : Settings) :
    let r := g.propagate settings
    (∀ b ∈ g.function.blocks, b.id ∈ r.entries →
        ∃! n, ((Progress.start g).advance settings n).Runs settings b) ∧
      r.transfers = r.entries.size ∧
      r.widened = [] ∧
      (∀ id, g.function.Reachable id →
        (id ∈ r.entries ↔
          id = g.function.entry ∨ (g.incomingStore? settings r.exits id).isSome)) ∧
      (∀ id entry, r.entries[id]? = some entry →
        g.incomingStore? settings r.exits id = some entry) ∧
      (∀ entries exits, g.Solves settings entries exits ↔
        entries = r.entries ∧ exits = r.exits) ∧
      ∀ cap, g.propagate { settings with maxFixpointIterations := cap } = r := by
  intro r
  have hswept := Progress.swept_finish hacyclic settings
  have hsolves := solves_propagate hacyclic settings
  have hentry : ∀ id, g.function.Reachable id →
      r.entries[id]? = g.incomingStore? settings r.exits id := by
    intro id hid
    obtain ⟨b, hb, rfl⟩ := List.mem_map.mp (mem_orderIds_iff.mpr hid)
    exact hsolves.entry_eq b hb
  refine ⟨?_, hswept.transfers, hswept.widened, ?_, ?_, ?_, propagate_of_acyclic hacyclic settings⟩
  · intro b hb hid
    exact Progress.existsUnique_runs hacyclic (mem_order_of_mem_entries hb hid) hid
  · intro id hid
    rw [Std.ExtTreeMap.mem_iff_isSome_getElem?, hentry id hid]
    constructor
    · exact Or.inr
    · rintro (rfl | hsome)
      · obtain ⟨s, hs⟩ := g.exists_incomingStore?_entry settings r.exits
        rw [hs]
        rfl
      · exact hsome
  · intro id entry hid
    rw [← hentry id (reachable_of_mem_entries (mem_entries_of_eq_some hid)), hid]
  · intro entries exits
    constructor
    · intro h
      exact h.unique hacyclic hsolves
    · rintro ⟨rfl, rfl⟩
      exact hsolves

/-- Two branches into the same blocks, the second of which never goes to the left. -/
def crossing : Flow where
  function :=
    { name := "crossing"
      entry := "first"
      blocks :=
        [ ⟨"right", [.assign "i" (.const 9) ⟨5, 3, 5, 7⟩], .goto "end"⟩,
          ⟨"left", [.assign "i" (.const 7) ⟨4, 3, 4, 7⟩], .goto "end"⟩,
          ⟨"first", [], .branch none "second" "right"⟩,
          ⟨"second", [.assign "i" (.const 5) ⟨2, 3, 2, 7⟩],
            .branch (some ⟨"i", .lt, .const 5⟩) "left" "right"⟩,
          ⟨"end", [], .exit⟩ ] }
  wellFormed := (Function.fault?_eq_none_iff _).mp (by decide)
  order := _
  order_eq := rfl

/-- Of the five blocks four are reached, each in one run, even if no change is allowed. -/
theorem solved_in_one_pass_crossing :
    let strict : Settings := { (default : Settings) with maxFixpointIterations := 0 }
    crossing.function.Acyclic ∧ (crossing.propagate strict).transfers = 4 ∧
      (crossing.propagate strict).widened = [] := by
  intro strict
  have hacyclic : crossing.function.Acyclic := by
    let rank (id : String) : Nat :=
      if id = "first" then 0 else if id = "second" then 1 else if id = "end" then 3 else 2
    apply Function.acyclic_of_rank rank
    decide
  obtain ⟨-, htransfers, hwidened, -⟩ := solved_in_one_pass hacyclic strict
  refine ⟨hacyclic, ?_, hwidened⟩
  rw [htransfers]
  decide +kernel

end Flow

end BufferBounds
