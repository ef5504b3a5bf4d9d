import BufferBounds.Proofs.Lockstep
import BufferBounds.Proofs.Stability

/-!
# Snapshots of a propagation

The way that a propagation takes does not depend on all that a `Progress` holds. The exit stores
follow from the entry stores, and that only assigned variables are bound is a proof. A `Snapshot`
keeps the rest, so it can be written down, also where it has parameters: the propagation through a
family of functions is followed by naming the snapshots that it comes by. `Snapshot.Step` has one
constructor for each thing that a visit can do, with the facts that make it do so.
-/

namespace BufferBounds

/-- What determines the steps that a propagation takes from here. -/
@[ext] structure Snapshot where
  /-- the store at the start of each block that was reached -/
  store? : String → Option Store
  /-- how often the store at the start of a loop changed after the first visit -/
  changes : String → Nat
  /-- the blocks whose store was widened, in the order in which this first happened -/
  widened : List String
  /-- the places of the blocks to be visited, ascending -/
  pending : List Nat

namespace Snapshot

/-! ## What a visit changes -/

/-- No block was visited, and all are pending. -/
def start (g : Flow) : Snapshot where
  store? _ := none
  changes _ := 0
  widened := []
  pending := List.range g.order.length

/-- The store at the end of a block that was reached. -/
def exit? (settings : Settings) (s : Snapshot) (b : Block) : Option Store :=
  (s.store? b.id).map (b.transfer settings)

/-- The stores that arrive at the start of a block. -/
def arriving (g : Flow) (settings : Settings) (s : Snapshot) (id : String) : List Store :=
  (if id = g.function.entry then [∅] else []) ++
    (g.incoming id).filterMap fun (b, kind) => (s.exit? settings b).bind (b.along? settings kind)

/-- What arrives at a block that only one edge leads to. -/
theorem joinAll?_arriving {g : Flow} {settings : Settings} {s : Snapshot} {id : String} {b : Block}
    {kind : EdgeKind} (hid : id ≠ g.function.entry) (hincoming : g.incoming id = [(b, kind)]) :
    Store.joinAll? (s.arriving g settings id) =
      (s.exit? settings b).bind (b.along? settings kind) := by
  rw [arriving, if_neg hid, hincoming, List.nil_append, List.filterMap_cons, List.filterMap_nil]
  simp only
  cases (s.exit? settings b).bind (b.along? settings kind) <;> rfl

/-- The snapshot with these places still to be visited. -/
def awaiting (s : Snapshot) (pending : List Nat) : Snapshot := { s with pending }

/-- The block `b` is run from the store `entry`. -/
def run (g : Flow) (settings : Settings) (s : Snapshot) (b : Block) (entry : Store) : Snapshot :=
  { s with
    store? := fun id => if b.id = id then some entry else s.store? id
    pending :=
      if s.exit? settings b = some (b.transfer settings entry) then s.pending
      else (g.targetPlaces b).foldl (fun pending place => enqueue place pending) s.pending }

/-- After its first visit all that a block leads to is pending. -/
theorem pending_run_of_new {g : Flow} {settings : Settings} {s : Snapshot} {b : Block} {entry : Store}
    (h : s.store? b.id = none) : (s.run g settings b entry).pending =
      (g.targetPlaces b).foldl (fun pending place => enqueue place pending) s.pending :=
  if_neg (by rw [exit?, h]; nofun)

/-- The store at the start of a loop changes. -/
def count (s : Snapshot) (id : String) : Snapshot :=
  { s with changes := fun id' => if id = id' then s.changes id + 1 else s.changes id' }

/-- The store at the start of a loop is widened. -/
def widen (s : Snapshot) (id : String) : Snapshot :=
  { s with widened := if id ∈ s.widened then s.widened else s.widened ++ [id] }

/-! ## Steps -/

/-- The block `b` is visited next, and then these places are pending. -/
def Visits (g : Flow) (s : Snapshot) (b : Block) (pending : List Nat) : Prop :=
  ∃ place, s.pending = place :: pending ∧ g.order[place]? = some b

/-- The store `incoming` arrives at `b`, and it changes the store `old` that was there before. -/
structure Renews (g : Flow) (settings : Settings) (s : Snapshot) (b : Block) (old incoming : Store) :
    Prop where
  /-- it arrives -/
  arrives : Store.joinAll? (s.arriving g settings b.id) = some incoming
  /-- the other one was there before -/
  held : s.store? b.id = some old
  /-- the two are not the same together -/
  changed : old.join incoming ≠ old

/-- One step leads from `s` to another snapshot. -/
inductive Step (g : Flow) (settings : Settings) (s : Snapshot) : Snapshot → Prop where
  /-- a visit that finds nothing new is given up -/
  | idle {b : Block} {pending : List Nat} (hvisits : s.Visits g b pending)
      (hsettled : ∀ incoming, Store.joinAll? (s.arriving g settings b.id) = some incoming →
        ∃ old, s.store? b.id = some old ∧ old.join incoming = old) :
      Step g settings s (s.awaiting pending)
  /-- the first visit takes the store that arrives -/
  | first {b : Block} {pending : List Nat} {incoming : Store} (hvisits : s.Visits g b pending)
      (harrives : Store.joinAll? (s.arriving g settings b.id) = some incoming)
      (hnew : s.store? b.id = none) :
      Step g settings s ((s.awaiting pending).run g settings b incoming)
  /-- where no loop starts, the store that arrives is joined in -/
  | plain {b : Block} {pending : List Nat} {old incoming : Store} (hvisits : s.Visits g b pending)
      (hrenews : s.Renews g settings b old incoming) (hheader : ¬ g.isLoopHeader b.id) :
      Step g settings s ((s.awaiting pending).run g settings b (old.join incoming))
  /-- where a loop starts the change is counted -/
  | counted {b : Block} {pending : List Nat} {old incoming : Store} (hvisits : s.Visits g b pending)
      (hrenews : s.Renews g settings b old incoming) (hheader : g.isLoopHeader b.id)
      (hcap : s.changes b.id + 1 ≤ settings.maxFixpointIterations.toNat) :
      Step g settings s (((s.awaiting pending).count b.id).run g settings b (old.join incoming))
  /-- after too many changes what still changes is widened -/
  | widened {b : Block} {pending : List Nat} {old incoming : Store} (hvisits : s.Visits g b pending)
      (hrenews : s.Renews g settings b old incoming) (hheader : g.isLoopHeader b.id)
      (hcap : settings.maxFixpointIterations.toNat < s.changes b.id + 1) :
      Step g settings s ((((s.awaiting pending).count b.id).widen b.id).run g settings b
        ((old.join incoming).widen (old.changed (old.join incoming))))

namespace Step

variable {g : Flow} {settings : Settings} {s t u : Snapshot} {b : Block} {pending : List Nat}

/-- Where nothing arrives there is nothing new. -/
theorem unreached (hvisits : s.Visits g b pending)
    (hnone : Store.joinAll? (s.arriving g settings b.id) = none) :
    Step g settings s (s.awaiting pending) :=
  .idle hvisits fun incoming harrives => by cases hnone.symm.trans harrives

/-- Where what arrives is covered there is nothing new. -/
theorem covered {old incoming : Store} (hvisits : s.Visits g b pending)
    (harrives : Store.joinAll? (s.arriving g settings b.id) = some incoming)
    (hheld : s.store? b.id = some old) (hcovers : old.join incoming = old) :
    Step g settings s (s.awaiting pending) :=
  .idle hvisits fun _ harrives' =>
    ⟨old, hheld, Option.some.inj (harrives.symm.trans harrives') ▸ hcovers⟩

theorem trans_eq (h : s.Step g settings t) (heq : t = u) : s.Step g settings u := heq ▸ h

end Step

/-- Some number of steps leads from one snapshot to another. -/
def Steps (g : Flow) (settings : Settings) : Snapshot → Snapshot → Prop :=
  Relation.ReflTransGen (Step g settings)

end Snapshot

namespace Progress

open Snapshot

variable {g : Flow} {settings : Settings} {p q : Progress g} {s t : Snapshot} {b : Block}
  {incoming entry : Store}

/-! ## The snapshot of a progress -/

/-- The snapshot tells all of a progress but its exit stores. -/
structure Fits (p : Progress g) (s : Snapshot) : Prop where
  /-- the entry stores -/
  entries_eq : ∀ id, p.entries[id]? = s.store? id
  /-- the counted changes -/
  changes_eq : ∀ id, p.changes.getD id 0 = s.changes id
  /-- the widened blocks -/
  widened_eq : p.widened = s.widened
  /-- the pending places -/
  pending_eq : p.pending = s.pending

namespace Fits

theorem awaiting (h : p.Fits s) (pending : List Nat) :
    (p.awaiting pending).Fits (s.awaiting pending) :=
  ⟨h.entries_eq, h.changes_eq, h.widened_eq, rfl⟩

theorem count (h : p.Fits s) (id : String) : (p.count id).Fits (s.count id) where
  entries_eq := h.entries_eq
  changes_eq id' := by
    rw [Progress.count, Std.ExtTreeMap.getD_insert]
    simp only [Std.LawfulEqCmp.compare_eq_iff_eq, h.changes_eq, Snapshot.count]
  widened_eq := h.widened_eq
  pending_eq := h.pending_eq

theorem widen (h : p.Fits s) (id : String) : (p.widen id).Fits (s.widen id) where
  entries_eq := h.entries_eq
  changes_eq := h.changes_eq
  widened_eq := by rw [Progress.widen, Snapshot.widen, h.widened_eq]
  pending_eq := h.pending_eq

theorem run (h : p.Fits s) (hexit : p.exits[b.id]? = s.exit? settings b) {hb : b ∈ g.order}
    {hentry : entry.Within g.assigned} :
    (p.run settings b hb entry hentry).Fits (s.run g settings b entry) where
  entries_eq id := by
    rw [getElem?_entries_run, h.entries_eq]
    rfl
  changes_eq := h.changes_eq
  widened_eq := h.widened_eq
  pending_eq := by rw [Progress.run, Snapshot.run, hexit, h.pending_eq]

end Fits

/-- The exit store of a block that has an entry store is the one that running it gives. -/
theorem Consistent.getElem?_exits (h : Consistent settings p) (hb : b ∈ g.function.blocks) :
    p.exits[b.id]? = (p.entries[b.id]?).map (b.transfer settings) := by
  cases hentry : p.entries[b.id]? with
  | some entry =>
    have hmem := h.mem_order b.id (Table.mem_of_eq_some hentry)
    exact h.exit_eq b (Flow.mem_order_iff.mpr ⟨hb, Flow.mem_orderIds_iff.mp hmem⟩) entry hentry
  | none =>
    refine Option.eq_none_iff_forall_ne_some.mpr fun exit hexit => ?_
    have hmem := (h.mem_iff b.id).mpr (Table.mem_of_eq_some hexit)
    obtain ⟨entry, hsome⟩ := Table.mem_iff_exists.mp hmem
    rw [hentry] at hsome
    cases hsome

/-- The snapshot tells how far the propagation is. -/
structure Shows (settings : Settings) (p : Progress g) (s : Snapshot) : Prop where
  /-- the exit stores are those that the entry stores lead to -/
  consistent : Consistent settings p
  /-- all else stands in the snapshot -/
  fits : p.Fits s

namespace Shows

theorem start (g : Flow) (settings : Settings) :
    Shows settings (Progress.start g) (Snapshot.start g) where
  consistent := .start g settings
  fits := ⟨fun _ => Std.ExtTreeMap.getElem?_empty, fun _ => Std.ExtTreeMap.getD_empty, rfl, rfl⟩

theorem exits_eq (h : p.Shows settings s) (hb : b ∈ g.function.blocks) :
    p.exits[b.id]? = s.exit? settings b := by
  rw [h.consistent.getElem?_exits hb, h.fits.entries_eq, exit?]

theorem exits_eq_of_mem_order (h : p.Shows settings s) (hb : b ∈ g.order) :
    p.exits[b.id]? = s.exit? settings b :=
  h.exits_eq (Flow.mem_blocks_of_mem_order hb)

/-- The snapshot tells which stores arrive. -/
theorem incomingStore?_eq (h : p.Shows settings s) (id : String) :
    g.incomingStore? settings p.exits id = Store.joinAll? (s.arriving g settings id) := by
  rw [Flow.incomingStore?, Flow.arriving, Snapshot.arriving]
  refine congrArg (fun l => Store.joinAll? (_ ++ l)) (List.filterMap_congr fun edge hedge => ?_)
  obtain ⟨b, kind⟩ := edge
  simp only [h.exits_eq (Flow.mem_incoming.mp hedge).1]

/-- Where a store arrives, the next step is a visit. -/
theorem exists_visit {pending : List Nat} (h : p.Shows settings s) (hvisits : s.Visits g b pending)
    (harrives : Store.joinAll? (s.arriving g settings b.id) = some incoming) :
    ∃ (hmem : b ∈ g.order) (hwithin : incoming.Within g.assigned),
      p.step? settings = some ((p.awaiting pending).visit settings b hmem incoming hwithin) := by
  obtain ⟨place, hpending, hplace⟩ := hvisits
  rw [← h.incomingStore?_eq] at harrives
  rw [← h.fits.pending_eq] at hpending
  have hmem := List.mem_of_getElem? hplace
  have hwithin := Flow.within_incomingStore? p.within_exits harrives
  exact ⟨hmem, hwithin, step?_eq_visit hpending hplace harrives hmem hwithin⟩

/-- A visit that changes the store that was there before. -/
theorem exists_renewal {pending : List Nat} {old : Store} (h : p.Shows settings s)
    (hvisits : s.Visits g b pending) (hrenews : s.Renews g settings b old incoming) :
    ∃ (hmem : b ∈ g.order) (hjoined : (old.join incoming).Within g.assigned),
      p.step? settings = some (
        if g.isLoopHeader b.id then
          if settings.maxFixpointIterations.toNat < s.changes b.id + 1 then
            (((p.awaiting pending).count b.id).widen b.id).run settings b hmem
              ((old.join incoming).widen (old.changed (old.join incoming))) (hjoined.widen _)
          else ((p.awaiting pending).count b.id).run settings b hmem (old.join incoming) hjoined
        else (p.awaiting pending).run settings b hmem (old.join incoming) hjoined) := by
  obtain ⟨hmem, hwithin, heq⟩ := h.exists_visit hvisits hrenews.arrives
  have hold : p.entries[b.id]? = some old := (h.fits.entries_eq b.id).trans hrenews.held
  have hjoined := (p.within_entries b.id old hold).join hwithin
  refine ⟨hmem, hjoined, heq.trans (congrArg some ?_)⟩
  rw [visit_of_eq_some (p := p.awaiting pending) hold hjoined, if_neg hrenews.changed,
    ← h.fits.changes_eq]
  rfl

/-- A step between snapshots is a step of the propagation. -/
theorem step (h : p.Shows settings s) (hstep : s.Step g settings t) :
    ∃ q, p.step? settings = some q ∧ q.Shows settings t := by
  have hlead : ∀ q : Progress g, p.step? settings = some q → q.Fits t →
      ∃ q, p.step? settings = some q ∧ q.Shows settings t := fun q hq ht =>
    ⟨q, hq, h.consistent.step (stepped_of_step? hq), ht⟩
  cases hstep with
  | @idle b pending hvisits hsettled =>
    refine hlead (p.awaiting pending) ?_ (h.fits.awaiting pending)
    cases harrives : Store.joinAll? (s.arriving g settings b.id) with
    | none =>
      obtain ⟨place, hpending, hplace⟩ := hvisits
      rw [← h.incomingStore?_eq] at harrives
      rw [← h.fits.pending_eq] at hpending
      exact step?_of_incomingStore?_eq_none hpending hplace harrives
    | some incoming =>
      obtain ⟨hmem, hwithin, heq⟩ := h.exists_visit hvisits harrives
      obtain ⟨old, hheld, hsame⟩ := hsettled incoming harrives
      have hold : p.entries[b.id]? = some old := (h.fits.entries_eq b.id).trans hheld
      rw [heq, visit_of_eq_some (p := p.awaiting pending) hold
        ((p.within_entries b.id old hold).join hwithin), if_pos hsame]
  | @first b pending incoming hvisits harrives hnew =>
    obtain ⟨hmem, hwithin, heq⟩ := h.exists_visit hvisits harrives
    have hold : p.entries[b.id]? = none := (h.fits.entries_eq b.id).trans hnew
    rw [visit_of_eq_none (p := p.awaiting pending) hold] at heq
    exact hlead _ heq ((h.fits.awaiting pending).run (h.exits_eq_of_mem_order hmem))
  | @plain b pending old incoming hvisits hrenews hheader =>
    obtain ⟨hmem, hjoined, heq⟩ := h.exists_renewal hvisits hrenews
    rw [if_neg hheader] at heq
    exact hlead _ heq ((h.fits.awaiting pending).run (h.exits_eq_of_mem_order hmem))
  | @counted b pending old incoming hvisits hrenews hheader hcap =>
    obtain ⟨hmem, hjoined, heq⟩ := h.exists_renewal hvisits hrenews
    rw [if_pos hheader, if_neg (Nat.not_lt.mpr hcap)] at heq
    exact hlead _ heq (((h.fits.awaiting pending).count b.id).run (h.exits_eq_of_mem_order hmem))
  | @widened b pending old incoming hvisits hrenews hheader hcap =>
    obtain ⟨hmem, hjoined, heq⟩ := h.exists_renewal hvisits hrenews
    rw [if_pos hheader, if_pos hcap] at heq
    exact hlead _ heq ((((h.fits.awaiting pending).count b.id).widen b.id).run
      (h.exits_eq_of_mem_order hmem))

/-- Where steps between snapshots lead and nothing is pending, there the propagation ends. -/
theorem finish (h : p.Shows settings s) (hsteps : s.Steps g settings t) (hpending : t.pending = []) :
    (p.finish settings).Shows settings t := by
  induction hsteps using Relation.ReflTransGen.head_induction_on generalizing p with
  | refl =>
    rwa [finish_of_step?_eq_none (step?_eq_none_iff.mpr (h.fits.pending_eq.trans hpending))]
  | head hstep _ ih =>
    obtain ⟨q, hq, hshows⟩ := h.step hstep
    rw [finish_of_step?_eq_some hq]
    exact ih hshows

end Shows

end Progress

end BufferBounds
