import BufferBounds.Proofs.JoinLaws
import BufferBounds.Proofs.Lockstep
import BufferBounds.Proofs.Reports
import BufferBounds.Proofs.Stability

/-!
# What cannot be reached does not matter

Two functions are alike if the same blocks can be reached in both. Their blocks may be listed in
another order, and there may be other blocks around, also such that lead into the common part. The
propagations through the two go in lockstep: the search from the entry sees reachable blocks only, a
block that cannot be reached never gets an exit store, and what arrives at a block is joined to the
same store in any order.
-/

namespace BufferBounds

/-! ## Functions that are alike -/

/-- The same blocks can be reached in both functions, from the same entry. -/
structure Function.Alike (f f' : Function) : Prop where
  /-- they have one name -/
  name_eq : f.name = f'.name
  /-- they have one entry -/
  entry_eq : f.entry = f'.entry
  /-- what is a block of the one and can be reached there, is and can in the other -/
  block_iff : ∀ b, (b ∈ f.blocks ∧ f.Reachable b.id) ↔ (b ∈ f'.blocks ∧ f'.Reachable b.id)

/-- The search finds the same where it looks up the same blocks. -/
theorem Function.search_congr {f f' : Function}
    (h : ∀ id, f.Reachable id → f.block? id = f'.block? id) {tasks : List SearchTask}
    {seen : List String} {found : List Block}
    (htasks : ∀ id, .enter id ∈ tasks → f.Reachable id) :
    f.search tasks seen found = f'.search tasks seen found := by
  fun_induction Function.search f tasks seen found with
  | case1 seen found => rw [search]
  | case2 seen found b tasks ih =>
    rw [search.eq_def f']
    exact ih fun id hid => htasks id (List.mem_cons_of_mem _ hid)
  | case3 seen found id tasks hseen ih =>
    rw [search.eq_def f']
    simp only [dif_pos hseen]
    exact ih fun id hid => htasks id (List.mem_cons_of_mem _ hid)
  | case4 seen found id tasks hseen hb ih =>
    rw [h id (htasks id (List.mem_cons_self ..))] at hb
    rw [search.eq_def f']
    simp only [dif_neg hseen]
    split
    · exact ih fun id hid => htasks id (List.mem_cons_of_mem _ hid)
    · rename_i b' hb'
      rw [hb] at hb'
      cases hb'
  | case5 seen found id tasks hseen b hb ih =>
    have hreach : f.Reachable id := htasks id (List.mem_cons_self ..)
    have hb' := hb
    rw [h id hreach] at hb'
    rw [search.eq_def f']
    simp only [dif_neg hseen]
    split
    · rename_i hnone
      rw [hb'] at hnone
      cases hnone
    · rename_i c hc
      obtain rfl := Option.some.inj (hb'.symm.trans hc)
      refine ih fun target ht => ?_
      rcases List.mem_append.mp ht with ht | ht
      · -- the new tasks are to visit what a reachable block leads to
        obtain ⟨target', ht', heq⟩ := List.mem_map.mp ht
        cases heq
        exact hreach.tail ⟨b, hb, ht'⟩
      · exact htasks target (List.mem_cons_of_mem _ (by simpa using ht))

namespace Flow

variable {g g' : Flow} {settings : Settings} {exits : Table Store} {id : String}

/-! ## The order -/

theorem block?_congr (h : g.function.Alike g'.function) (hid : g.function.Reachable id) :
    g.function.block? id = g'.function.block? id := by
  obtain ⟨b, hb, rfl⟩ := List.mem_map.mp (mem_orderIds_iff.mpr hid)
  have hb' : b ∈ g'.order := mem_order_iff.mpr ((h.block_iff b).mp (mem_order_iff.mp hb))
  rw [block?_of_mem_order hb, block?_of_mem_order hb']

theorem order_congr (h : g.function.Alike g'.function) : g.order = g'.order := by
  rw [g.order_eq, g'.order_eq, Function.visitOrder, Function.visitOrder, ← h.entry_eq]
  refine Function.search_congr (fun id hid => block?_congr h hid) ?_
  intro id hid
  cases List.mem_singleton.mp hid
  exact Relation.ReflTransGen.refl

theorem position?_congr (h : g.function.Alike g'.function) : g.position? = g'.position? := by
  funext id
  rw [position?, position?, order_congr h]

theorem isLoopHeader_congr (h : g.function.Alike g'.function) (id : String) :
    g.isLoopHeader id = g'.isLoopHeader id := by
  rw [isLoopHeader, isLoopHeader, position?_congr h, order_congr h]

theorem targetPlaces_congr (h : g.function.Alike g'.function) (b : Block) :
    g.targetPlaces b = g'.targetPlaces b := by
  rw [targetPlaces, targetPlaces, position?_congr h]

/-! ## What arrives -/

/-- The stores that arrive along the edges of one block. -/
def sentBy (settings : Settings) (exits : Table Store) (id : String) (b : Block) : List Store :=
  (b.terminator.edges.filter (·.1 == id)).filterMap fun edge =>
    exits[b.id]?.bind (b.along? settings edge.2)

theorem arriving_eq_flatMap (g : Flow) (settings : Settings) (exits : Table Store) (id : String) :
    g.arriving settings exits id =
      (if id = g.function.entry then [∅] else []) ++
        g.function.blocks.flatMap (sentBy settings exits id) := by
  rw [arriving, incoming, List.filterMap_flatMap]
  simp only [List.filterMap_map]
  rfl

/-- A block without an exit store sends nothing. -/
theorem flatMap_sentBy (blocks : List Block) :
    blocks.flatMap (sentBy settings exits id) =
      (blocks.filter fun b => b.id ∈ exits).flatMap (sentBy settings exits id) := by
  induction blocks with
  | nil => rfl
  | cons b blocks ih =>
    rw [List.flatMap_cons, ih]
    by_cases hb : b.id ∈ exits
    · rw [List.filter_cons_of_pos (by simpa using hb), List.flatMap_cons]
    · have hnil : sentBy settings exits id b = [] := by
        rw [sentBy, Std.ExtTreeMap.getElem?_eq_none hb]
        simp
      rw [List.filter_cons_of_neg (by simpa using hb), hnil, List.nil_append]

theorem nodup_blocks (g : Flow) : g.function.blocks.Nodup :=
  g.wellFormed.nodup_ids.of_map

/-- The blocks with an exit store are the same, listed in one order or another. -/
theorem perm_filter_blocks (h : g.function.Alike g'.function)
    (hexits : ∀ id ∈ exits, id ∈ g.orderIds) :
    (g.function.blocks.filter fun b => b.id ∈ exits).Perm
      (g'.function.blocks.filter fun b => b.id ∈ exits) := by
  have horder : g.orderIds = g'.orderIds := by
    rw [orderIds, orderIds, order_congr h]
  refine (List.perm_ext_iff_of_nodup (g.nodup_blocks.filter _) (g'.nodup_blocks.filter _)).mpr ?_
  intro b
  rw [List.mem_filter, List.mem_filter]
  refine and_congr_left fun hb => ?_
  have hid := hexits b.id (by simpa using hb)
  have hreach := mem_orderIds_iff.mp hid
  have hreach' := mem_orderIds_iff.mp (horder ▸ hid)
  have hiff := h.block_iff b
  rwa [and_iff_left hreach, and_iff_left hreach'] at hiff

/-- The same arrives at a block, if only blocks that can be reached have exit stores. -/
theorem incomingStore?_of_alike (h : g.function.Alike g'.function)
    (hexits : ∀ id ∈ exits, id ∈ g.orderIds)
    (hnormal : ∀ (id : String) (s : Store), exits[id]? = some s → s.Normal) :
    g.incomingStore? settings exits id = g'.incomingStore? settings exits id := by
  refine Store.joinAll?_perm ?_ fun s hs => normal_of_mem_arriving hnormal hs
  rw [arriving_eq_flatMap, arriving_eq_flatMap, flatMap_sentBy, flatMap_sentBy g'.function.blocks,
    h.entry_eq]
  exact ((perm_filter_blocks h hexits).flatMap_right _).append_left _

end Flow

/-! ## Propagation -/

namespace Progress

variable {g g' : Flow} {settings : Settings} {p : Progress g} {p' : Progress g'} {b : Block}
  {hb : b ∈ g.order} {hb' : b ∈ g'.order} {incoming : Store} {hincoming : incoming.Within g.assigned}
  {hincoming' : incoming.Within g'.assigned}

/-- Two propagations are at the same point. -/
structure Agrees (p : Progress g) (p' : Progress g') : Prop where
  /-- with the same stores at the starts of the blocks -/
  entries : p.entries = p'.entries
  /-- and at their ends -/
  exits : p.exits = p'.exits
  /-- with the same numbers of changes -/
  changes : p.changes = p'.changes
  /-- and the same blocks widened -/
  widened : p.widened = p'.widened
  /-- after the same number of blocks run -/
  transfers : p.transfers = p'.transfers
  /-- with the same places to be visited -/
  pending : p.pending = p'.pending

namespace Agrees

theorem start (h : g.function.Alike g'.function) : (start g).Agrees (start g') where
  entries := rfl
  exits := rfl
  changes := rfl
  widened := rfl
  transfers := rfl
  pending := by rw [Progress.start, Progress.start, Flow.order_congr h]

theorem awaiting (h : p.Agrees p') (pending : List Nat) :
    (p.awaiting pending).Agrees (p'.awaiting pending) :=
  ⟨h.entries, h.exits, h.changes, h.widened, h.transfers, rfl⟩

theorem count (h : p.Agrees p') (id : String) : (p.count id).Agrees (p'.count id) where
  entries := h.entries
  exits := h.exits
  changes := by simp only [Progress.count, h.changes]
  widened := h.widened
  transfers := h.transfers
  pending := h.pending

theorem widen (h : p.Agrees p') (id : String) : (p.widen id).Agrees (p'.widen id) where
  entries := h.entries
  exits := h.exits
  changes := h.changes
  widened := by simp only [Progress.widen, h.widened]
  transfers := h.transfers
  pending := h.pending

theorem run (h : p.Agrees p') (halike : g.function.Alike g'.function) :
    (p.run settings b hb incoming hincoming).Agrees
      (p'.run settings b hb' incoming hincoming') where
  entries := congrArg (·.insert b.id incoming) h.entries
  exits := congrArg (·.insert b.id (b.transfer settings incoming)) h.exits
  changes := h.changes
  widened := h.widened
  transfers := congrArg (· + 1) h.transfers
  pending := by
    simp only [Progress.run, h.exits, h.pending, Flow.targetPlaces_congr halike]

theorem visit (h : p.Agrees p') (halike : g.function.Alike g'.function) :
    (p.visit settings b hb incoming hincoming).Agrees
      (p'.visit settings b hb' incoming hincoming') := by
  cases hold : p.entries[b.id]? with
  | none =>
    rw [visit_of_eq_none hold, visit_of_eq_none (h.entries ▸ hold)]
    exact h.run halike
  | some old =>
    have hold' : p'.entries[b.id]? = some old := h.entries ▸ hold
    rw [visit_of_eq_some hold ((p.within_entries _ _ hold).join hincoming),
      visit_of_eq_some hold' ((p'.within_entries _ _ hold').join hincoming'),
      h.changes, Flow.isLoopHeader_congr halike]
    split
    · exact h
    · split
      · split
        · exact ((h.count b.id).widen b.id).run halike
        · exact (h.count b.id).run halike
      · exact h.run halike

/-- One step keeps the agreement, since the same store arrives at every block. -/
theorem step? (h : p.Agrees p') (halike : g.function.Alike g'.function)
    (hconsistent : Consistent settings p) (hnormal : p.Normal) :
    Option.Rel Agrees (p.step? settings) (p'.step? settings) := by
  have hincoming : ∀ id, g.incomingStore? settings p.exits id =
      g'.incomingStore? settings p'.exits id := by
    intro id
    rw [← h.exits]
    refine Flow.incomingStore?_of_alike halike (fun id hid => ?_) hnormal.exit
    exact hconsistent.mem_order id ((hconsistent.mem_iff id).mpr hid)
  cases hpending : p.pending with
  | nil =>
    rw [step?_eq_none_iff.mpr hpending, step?_eq_none_iff.mpr (h.pending ▸ hpending)]
    exact .none
  | cons place pending =>
    have hpending' : p'.pending = place :: pending := h.pending ▸ hpending
    cases hplace : g.order[place]? with
    | none =>
      rw [step?_of_getElem?_eq_none hpending hplace,
        step?_of_getElem?_eq_none hpending' (Flow.order_congr halike ▸ hplace)]
      exact .some (h.awaiting pending)
    | some b =>
      have hplace' : g'.order[place]? = some b := Flow.order_congr halike ▸ hplace
      cases hb : g.incomingStore? settings p.exits b.id with
      | none =>
        rw [step?_of_incomingStore?_eq_none hpending hplace hb,
          step?_of_incomingStore?_eq_none hpending' hplace' (hincoming b.id ▸ hb)]
        exact .some (h.awaiting pending)
      | some incoming =>
        have hb' := hincoming b.id ▸ hb
        rw [step?_eq_visit hpending hplace hb (List.mem_of_getElem? hplace)
            (Flow.within_incomingStore? p.within_exits hb),
          step?_eq_visit hpending' hplace' hb' (List.mem_of_getElem? hplace')
            (Flow.within_incomingStore? p'.within_exits hb')]
        exact .some ((h.awaiting pending).visit halike)

theorem finish (h : g.function.Alike g'.function) (settings : Settings) :
    ((Progress.start g).finish settings).Agrees ((Progress.start g').finish settings) := by
  let R (p : Progress g) (p' : Progress g') : Prop :=
    Consistent settings p ∧ p.Normal ∧ p.Agrees p'
  have hstep : ∀ p p', R p p' → Option.Rel R (p.step? settings) (p'.step? settings) := by
    rintro p p' ⟨hconsistent, hnormal, hagrees⟩
    have hrel := hagrees.step? h hconsistent hnormal
    generalize p'.step? settings = q' at hrel
    cases hq : p.step? settings with
    | none =>
      rw [hq] at hrel
      cases hrel
      exact .none
    | some q =>
      rw [hq] at hrel
      have hstepped := stepped_of_step? hq
      cases hrel with
      | some hqq => exact .some ⟨hconsistent.step hstepped, hnormal.step hstepped, hqq⟩
  exact (finish_lockstep hstep ⟨Consistent.start g settings, Normal.start g, start h⟩).2.2

end Agrees

end Progress

/-! ## The answer -/

theorem Flow.propagate_congr {g g' : Flow} (h : g.function.Alike g'.function)
    (settings : Settings) : g.propagate settings = g'.propagate settings := by
  have hagrees := Progress.Agrees.finish h settings
  rw [propagate, propagate]
  simp only [hagrees.entries, hagrees.exits, hagrees.widened, hagrees.transfers, observe,
    order_congr h, h.name_eq]

namespace Analyzer

theorem reportOn_congr {g g' : Flow} (h : g.function.Alike g'.function) (a : Analyzer) :
    a.reportOn g' =
      { a.reportOn g with
        stats := { (a.reportOn g).stats with blocks := g'.function.blocks.length } } := by
  simp only [reportOn, Flow.propagate_congr h, h.name_eq]

end Analyzer

/-- **The answer depends only on what can be reached.** Take two functions whose names fit together,
with one name and one entry and the same blocks that can be reached from it, and any settings. Then
propagation finds the same in both: the same stores, in as many steps, with the same blocks widened,
and the same allocations and accesses. And whatever checker judges the accesses, the reports on the
two functions differ in nothing but how many blocks the function has. -/
theorem Function.Alike.same_answer {f f' : Function} (h : f.Alike f') {g g' : Flow}
    (hg : Flow.ofFunction f = .ok g) (hg' : Flow.ofFunction f' = .ok g') :
    (∀ settings, g.propagate settings = g'.propagate settings) ∧
      ∀ a : Analyzer, ∃ r r', a.analyzeFunction f = .ok r ∧ a.analyzeFunction f' = .ok r' ∧
        r.stats.blocks = f.blocks.length ∧
        r' = { r with stats := { r.stats with blocks := f'.blocks.length } } := by
  obtain rfl := Flow.ofFunction_eq_ok_iff.mp hg
  obtain rfl := Flow.ofFunction_eq_ok_iff.mp hg'
  exact ⟨Flow.propagate_congr h, fun a =>
    ⟨_, _, a.analyzeFunction_function g, a.analyzeFunction_function g', rfl, a.reportOn_congr h⟩⟩

namespace Function.Alike

/-! The blocks of a function that fills a buffer of eight elements, and one that sets its counter
from outside and jumps into the loop, but is never jumped to. -/

/-- makes the buffer -/
def first : Block where
  id := "first"
  statements :=
    [.assign "p" (.call "malloc" [.const 8]) ⟨1, 1, 1, 13⟩, .assign "i" (.const 0) ⟨2, 1, 2, 5⟩]
  terminator := .goto "loop"

/-- goes through the buffer -/
def loop : Block where
  id := "loop"
  statements :=
    [.access "p" (.var "i") ⟨3, 3, 3, 6⟩, .assign "i" (.add (.var "i") (.const 1)) ⟨4, 3, 4, 11⟩]
  terminator := .branch (some ⟨"i", .lt, .const 8⟩) "loop" "last"

/-- leaves the function -/
def last : Block where
  id := "last"
  statements := []
  terminator := .exit

/-- nothing leads here -/
def stray : Block where
  id := "stray"
  statements := [.assign "i" (.const 100) ⟨9, 1, 9, 7⟩]
  terminator := .goto "loop"

/-- The function with the blocks in the order they run in. -/
def tidy : Flow where
  function := { name := "fill", entry := "first", blocks := [first, loop, last] }
  wellFormed := (Function.fault?_eq_none_iff _).mp (by decide)
  order := _
  order_eq := rfl

/-- The function with its blocks turned around and a stray one among them. -/
def untidy : Flow where
  function := { name := "fill", entry := "first", blocks := [last, stray, loop, first] }
  wellFormed := (Function.fault?_eq_none_iff _).mp (by decide)
  order := _
  order_eq := rfl

theorem alike_tidy_untidy : tidy.function.Alike untidy.function where
  name_eq := rfl
  entry_eq := rfl
  block_iff b := by
    have horder : tidy.orderIds = untidy.orderIds := by decide +kernel
    have hstray : "stray" ∉ untidy.orderIds := by decide +kernel
    rw [← Flow.mem_orderIds_iff, ← Flow.mem_orderIds_iff, horder]
    refine and_congr_left fun hid => ?_
    change b ∈ [first, loop, last] ↔ b ∈ [last, stray, loop, first]
    have hne : b ≠ stray := by
      rintro rfl
      exact hstray hid
    simp only [List.mem_cons, List.not_mem_nil, or_false, hne, false_or]
    tauto

/-- The stray block is not noticed. -/
theorem same_answer_tidy :
    tidy.function.Alike untidy.function ∧ tidy.propagate default = untidy.propagate default :=
  ⟨alike_tidy_untidy, (alike_tidy_untidy.same_answer (Flow.ofFunction_eq_ok_iff.mpr rfl)
    (Flow.ofFunction_eq_ok_iff.mpr rfl)).1 default⟩

end Function.Alike

end BufferBounds
