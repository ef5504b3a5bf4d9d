import BufferBounds.Proofs.CountingLoops
import BufferBounds.Proofs.Snapshots

/-!
# Convergence of counting loops

The propagation through a counting loop is followed for a bound that is not known. In each round the
counter is found to go one further at the head than before: this is a change at the head, the exit
may be reached, and the body is run again. So the rounds are counted by the changes at the head, and
`comes_round` tells by induction where the propagation is after each of them. It ends as soon as the
counter has come to the bound, or one change after the limit.
-/

namespace BufferBounds

namespace CountingLoop

open BufferBounds.Interval

/-! ## Stages -/

/-- How far the propagation through the loop is, once its entry was visited. -/
structure Stage where
  /-- what is known of the counter at the head, if it was reached -/
  head : Option Interval := none
  /-- what is known of it in the body -/
  body : Option Interval := none
  /-- what is known of it at the exit -/
  exit : Option Interval := none
  /-- how often the store at the head changed -/
  changes : Nat := 0
  /-- the blocks that were widened -/
  widened : List String := []
  /-- the places to be visited -/
  pending : List Nat

variable (l : CountingLoop)

/-- The snapshot of a stage. -/
def snapshot (x : Stage) : Snapshot where
  store? id :=
    if id = "entry" then some ∅
    else if id = "head" then x.head.map l.store
    else if id = "body" then x.body.map l.store
    else if id = "exit" then x.exit.map l.store
    else none
  changes id := if id = "head" then x.changes else 0
  widened := x.widened
  pending := x.pending

/-- The store that arrives at the start of a block. -/
def arrives? (x : Stage) (id : String) : Option Store :=
  Store.joinAll? ((l.snapshot x).arriving l.flow l.settings id)

/-- The propagation goes from one stage to another in one step. -/
def Goes (x y : Stage) : Prop := (l.snapshot x).Step l.flow l.settings (l.snapshot y)

/-- The propagation comes to this stage. -/
def Comes (x : Stage) : Prop := (Snapshot.start l.flow).Steps l.flow l.settings (l.snapshot x)

variable {l} {x y : Stage} {i j : Interval} {k m : Nat} {pending : List Nat}

theorem Comes.goes (h : l.Comes x) (hgoes : l.Goes x y) : l.Comes y :=
  Relation.ReflTransGen.tail h hgoes

/-! ## What arrives -/

theorem exit?_entry : (l.snapshot x).exit? l.settings (entry l.capacity) =
    some (l.store (.constant 0)) :=
  congrArg some transfer_entry

theorem exit?_head : (l.snapshot x).exit? l.settings (head l.bound) =
    x.head.map l.store :=
  Option.map_id' ..

theorem exit?_body : (l.snapshot x).exit? l.settings body =
    x.body.map fun i => l.store (i.add (.constant 1)) := by
  change (x.body.map l.store).map (body.transfer l.settings) = _
  rw [Option.map_map]
  exact congrFun (congrArg Option.map (funext fun i => transfer_body)) x.body

/-- The store of the entry is joined with the one that the body leads to, once it was reached. -/
theorem arrives?_head : l.arrives? x "head" = some (l.store
    (x.body.elim (.constant 0) fun i => (Interval.constant 0).join (i.add (.constant 1)))) := by
  have hid : "head" ≠ l.flow.function.entry := show "head" ≠ "entry" by decide
  have hincoming : l.flow.incoming "head" = [(entry l.capacity, .jump), (body, .jump)] := rfl
  have hjump : ∀ (b : Block) (exit? : Option Store), exit?.bind (b.along? l.settings .jump) = exit? :=
    fun b exit? => by cases exit? with
      | none => rfl
      | some s => exact Block.along?_jump
  rw [arrives?, Snapshot.arriving, if_neg hid, hincoming, List.nil_append]
  simp only [List.filterMap_cons, List.filterMap_nil, hjump, exit?_entry, exit?_body]
  cases x.body with
  | none => rfl
  | some i => exact congrArg some store_join

theorem arrives?_body (hhead : x.head = some i) :
    l.arrives? x "body" = (l.store i).assume? "i" .lt (.constant l.bound) := by
  have hid : "body" ≠ l.flow.function.entry := show "body" ≠ "entry" by decide
  rw [arrives?, Snapshot.joinAll?_arriving hid rfl, exit?_head, hhead, Option.map_some,
    Option.bind_some]
  exact Block.along?_whenTrue (b := head l.bound) l.narrows rfl

theorem arrives?_exit (hhead : x.head = some i) :
    l.arrives? x "exit" = (l.store i).assume? "i" .ge (.constant l.bound) := by
  have hid : "exit" ≠ l.flow.function.entry := show "exit" ≠ "entry" by decide
  rw [arrives?, Snapshot.joinAll?_arriving hid rfl, exit?_head, hhead, Option.map_some,
    Option.bind_some]
  exact Block.along?_whenFalse (b := head l.bound) l.narrows rfl

/-! ## What a visit leaves -/

theorem run_head (hne : x.head ≠ some i) :
    (l.snapshot x).run l.flow l.settings (head l.bound) (l.store i) =
      l.snapshot { x with head := some i, pending := enqueue 2 (enqueue 3 x.pending) } := by
  refine Snapshot.ext (funext fun id => ?_) rfl rfl (if_neg ?_)
  · by_cases hid : "head" = id
    · subst hid
      rfl
    · simp [Snapshot.run, snapshot, head, hid, Ne.symm hid]
  · -- the head is left with a store that it was not left with before
    rw [exit?_head, transfer_head]
    intro heq
    obtain ⟨j, hj, heq⟩ := Option.map_eq_some_iff.mp heq
    exact hne (store_inj.mp heq ▸ hj)

theorem run_body (hne : ∀ j, x.body = some j → j.add (.constant 1) ≠ i.add (.constant 1)) :
    (l.snapshot x).run l.flow l.settings body (l.store i) =
      l.snapshot { x with body := some i, pending := enqueue 1 x.pending } := by
  refine Snapshot.ext (funext fun id => ?_) rfl rfl (if_neg ?_)
  · by_cases hid : "body" = id
    · subst hid
      rfl
    · simp [Snapshot.run, snapshot, body, hid, Ne.symm hid]
  · rw [exit?_body, transfer_body]
    intro heq
    obtain ⟨j, hj, heq⟩ := Option.map_eq_some_iff.mp heq
    exact hne j hj (store_inj.mp heq)

theorem run_exit : (l.snapshot x).run l.flow l.settings exit (l.store i) =
    l.snapshot { x with exit := some i } := by
  refine Snapshot.ext (funext fun id => ?_) rfl rfl (ite_self _)
  by_cases hid : "exit" = id
  · subst hid
    rfl
  · simp [Snapshot.run, snapshot, exit, hid, Ne.symm hid]

theorem count_head : ((l.snapshot x).awaiting pending).count (head l.bound).id =
    l.snapshot { x with changes := x.changes + 1, pending } := by
  refine Snapshot.ext rfl (funext fun id => ?_) rfl rfl
  by_cases hid : "head" = id
  · subst hid
    rfl
  · simp [Snapshot.count, Snapshot.awaiting, snapshot, head, hid, Ne.symm hid]

theorem widen_head (hwidened : x.widened = []) :
    (l.snapshot x).widen (head l.bound).id = l.snapshot { x with widened := ["head"] } :=
  Snapshot.ext rfl rfl (by simp [Snapshot.widen, snapshot, hwidened, head]) rfl

/-! ## Steps -/

theorem isLoopHeader_head : l.flow.isLoopHeader (head l.bound).id = true := rfl

theorem isLoopHeader_body : l.flow.isLoopHeader body.id = false := rfl

theorem visits_head (hpending : x.pending = 1 :: pending) :
    (l.snapshot x).Visits l.flow (head l.bound) pending := ⟨1, hpending, rfl⟩

theorem visits_exit (hpending : x.pending = 2 :: pending) :
    (l.snapshot x).Visits l.flow exit pending := ⟨2, hpending, rfl⟩

theorem visits_body (hpending : x.pending = 3 :: pending) :
    (l.snapshot x).Visits l.flow body pending := ⟨3, hpending, rfl⟩

/-- The propagation starts with the entry, where nothing is known. -/
theorem comes_entry : l.Comes { pending := [1, 2, 3] } := by
  have hvisits : (Snapshot.start l.flow).Visits l.flow (entry l.capacity) [1, 2, 3] := ⟨0, rfl, rfl⟩
  have harrives : Store.joinAll? ((Snapshot.start l.flow).arriving l.flow l.settings "entry") =
      some ∅ := rfl
  refine .single ((Snapshot.Step.first hvisits harrives rfl).trans_eq ?_)
  refine Snapshot.ext (funext fun id => ?_) (funext fun id => (ite_self _).symm) rfl ?_
  · by_cases hid : "entry" = id
    · subst hid
      rfl
    · simp [Snapshot.run, Snapshot.awaiting, Snapshot.start, snapshot, entry, hid, Ne.symm hid]
  · exact Snapshot.pending_run_of_new rfl

section Head

variable (hpending : x.pending = 1 :: pending) (harrives : l.arrives? x "head" = some (l.store j))

include hpending harrives

theorem goes_head_first (hhead : x.head = none) :
    l.Goes x { x with head := some j, pending := enqueue 2 (enqueue 3 pending) } :=
  (Snapshot.Step.first (visits_head hpending) harrives
    (congrArg (Option.map l.store) hhead)).trans_eq
      (run_head (x := { x with pending }) fun hi => by cases hhead.symm.trans hi)

theorem goes_head_covered (hhead : x.head = some j) : l.Goes x { x with pending } :=
  .covered (visits_head hpending) harrives (congrArg (Option.map l.store) hhead) (Store.join_self _)

variable (hhead : x.head = some i) (hjoin : i.join j = j) (hne : i ≠ j)

include hhead hjoin hne

omit hpending in
theorem renews_head : (l.snapshot x).Renews l.flow l.settings (head l.bound)
    (l.store i) (l.store j) where
  arrives := harrives
  held := congrArg (Option.map l.store) hhead
  changed := by
    rw [store_join, hjoin, Ne, store_inj]
    exact hne.symm

/-- A change at the head is counted. -/
theorem goes_head_counted (hlimit : x.changes + 1 ≤ l.settings.maxFixpointIterations.toNat) :
    l.Goes x
      { x with
        head := some j
        changes := x.changes + 1
        pending := enqueue 2 (enqueue 3 pending) } := by
  have hchanged : x.head ≠ some j := by
    rw [hhead, Ne, Option.some.injEq]
    exact hne
  refine (Snapshot.Step.counted (visits_head hpending) (renews_head harrives hhead hjoin hne)
    isLoopHeader_head hlimit).trans_eq ?_
  rw [store_join, hjoin, count_head]
  exact run_head (x := { x with changes := x.changes + 1, pending }) hchanged

/-- Once there were too many, the counter is forgotten. -/
theorem goes_head_widened (hlimit : l.settings.maxFixpointIterations.toNat < x.changes + 1)
    (hwidened : x.widened = []) (hunknown : i ≠ .unknown) :
    l.Goes x
      { x with
        head := some .unknown
        changes := x.changes + 1
        widened := ["head"]
        pending := enqueue 2 (enqueue 3 pending) } := by
  have hwiden := widen_head (l := l) (x := { x with changes := x.changes + 1, pending }) hwidened
  have hchanged : x.head ≠ some .unknown := by
    rw [hhead, Ne, Option.some.injEq]
    exact hunknown
  refine (Snapshot.Step.widened (visits_head hpending) (renews_head harrives hhead hjoin hne)
    isLoopHeader_head hlimit).trans_eq ?_
  rw [store_join, hjoin, store_widen hne, count_head, hwiden]
  exact run_head (x := { x with changes := x.changes + 1, widened := ["head"], pending }) hchanged

end Head

section Body

variable (hpending : x.pending = 3 :: pending) (harrives : l.arrives? x "body" = some (l.store j))

include hpending harrives

theorem goes_body_first (hbody : x.body = none) :
    l.Goes x { x with body := some j, pending := enqueue 1 pending } :=
  (Snapshot.Step.first (visits_body hpending) harrives
    (congrArg (Option.map l.store) hbody)).trans_eq
      (run_body (x := { x with pending }) fun i hi => by cases hbody.symm.trans hi)

theorem goes_body_covered (hbody : x.body = some j) : l.Goes x { x with pending } :=
  .covered (visits_body hpending) harrives (congrArg (Option.map l.store) hbody) (Store.join_self _)

/-- The body starts no loop, so a change is not counted. -/
theorem goes_body_changed (hbody : x.body = some i) (hjoin : i.join j = j)
    (hne : i.add (.constant 1) ≠ j.add (.constant 1)) :
    l.Goes x { x with body := some j, pending := enqueue 1 pending } := by
  have hrenews : (l.snapshot x).Renews l.flow l.settings body (l.store i)
      (l.store j) :=
    { arrives := harrives
      held := congrArg (Option.map l.store) hbody
      changed := by
        rw [store_join, hjoin, Ne, store_inj]
        exact fun heq => hne (heq ▸ rfl) }
  refine (Snapshot.Step.plain (visits_body hpending) hrenews
    (Bool.eq_false_iff.mp isLoopHeader_body)).trans_eq ?_
  rw [store_join, hjoin]
  exact run_body (x := { x with pending }) fun i' hi' =>
    Option.some.inj (hbody.symm.trans hi') ▸ hne

end Body

section Exit

variable (hpending : x.pending = 2 :: pending)

include hpending

theorem goes_exit_unreached (hnone : l.arrives? x "exit" = none) : l.Goes x { x with pending } :=
  .unreached (visits_exit hpending) hnone

theorem goes_exit_first (harrives : l.arrives? x "exit" = some (l.store j)) (hexit : x.exit = none) :
    l.Goes x { x with exit := some j, pending } :=
  (Snapshot.Step.first (visits_exit hpending) harrives
    (congrArg (Option.map l.store) hexit)).trans_eq (run_exit (x := { x with pending }))

end Exit

/-! ## Rounds -/

/-- At the head the counter was found to go up to `k`, and this is not known in the body. -/
def renewed (k : Nat) (counted : Option Interval) : Stage :=
  { head := some (stretch 0 k), body := counted, changes := k, pending := [2, 3] }

/-- It is known in the body, and the head is next. -/
def round (k : Nat) : Stage :=
  { head := some (stretch 0 k), body := some (stretch 0 k), changes := k, pending := [1] }

theorem comes_renewed_zero : l.Comes (renewed 0 none) := by
  have harrives : l.arrives? { pending := [1, 2, 3] } "head" = some (l.store (stretch 0 0)) :=
    arrives?_head.trans (congrArg (fun i => some (l.store i)) stretch_zero.symm)
  exact comes_entry.goes (goes_head_first (x := { pending := [1, 2, 3] }) rfl harrives rfl)

section Rounds

variable (hk : k < l.bound.toInt)

include hk

/-- The counter was found to go up to `k` in the body, so it goes up to one more at the head. -/
theorem arrives?_head_round :
    l.arrives? (round k) "head" = some (l.store (stretch 0 (k + 1 : Nat))) :=
  arrives?_head.trans (congrArg (fun i => some (l.store i)) (zero_join_stretch_add_one hk))

theorem goes_renewed (hlimit : k + 1 ≤ l.settings.maxFixpointIterations.toNat) :
    l.Goes (round k) (renewed (k + 1) (some (stretch 0 k))) := by
  have hle : (k + 1 : Nat) ≤ l.bound.toInt := by omega
  exact goes_head_counted (x := round k) rfl (arrives?_head_round hk) rfl
    (stretch_join_of_le (Nat.le_succ k) hle) (stretch_ne (Nat.lt_succ_self k) hle) hlimit

/-- While the counter cannot have come to the bound, the exit is not reached and what is known at the
head is known in the body, and goes further than what was known there before. -/
theorem comes_round_of_renewed {counted : Option Interval} (hcomes : l.Comes (renewed k counted))
    (hcounted : ∀ i, counted = some i → ∃ m : Nat, m < k ∧ i = stretch 0 m) :
    l.Comes (round k) := by
  let unreached : Stage := { renewed k counted with pending := [3] }
  have hunreached : l.Comes unreached := hcomes.goes
    (goes_exit_unreached (x := renewed k counted) rfl
      ((arrives?_exit rfl).trans (assume?_ge_of_lt hk)))
  have harrives : l.arrives? unreached "body" = some (l.store (stretch 0 k)) :=
    (arrives?_body rfl).trans (assume?_lt_of_lt hk)
  cases counted with
  | none => exact hunreached.goes (goes_body_first (x := unreached) rfl harrives rfl)
  | some i =>
    obtain ⟨m, hm, rfl⟩ := hcounted i rfl
    exact hunreached.goes (goes_body_changed (x := unreached) rfl harrives rfl
      (stretch_join_of_le hm.le hk.le) (stretch_add_one_ne hm hk))

end Rounds

/-- In each round the store at the head changes once, and the change is counted. -/
theorem comes_round (k : Nat) (hk : k < l.bound.toInt)
    (hlimit : k ≤ l.settings.maxFixpointIterations.toNat) : l.Comes (round k) := by
  induction k with
  | zero => exact comes_round_of_renewed hk comes_renewed_zero nofun
  | succ k ih =>
    have hround := ih (by omega) (Nat.le_of_succ_le hlimit)
    refine comes_round_of_renewed hk (hround.goes (goes_renewed (by omega) hlimit)) fun i hi => ?_
    exact ⟨k, Nat.lt_succ_self k, (Option.some.inj hi).symm⟩

/-! ## Where the propagation ends -/

/-- The counter goes up to the bound, but not in the body. -/
def converged (bound : Int64) (k : Nat) : Stage :=
  { head := some (stretch 0 (k + 1 : Nat)), body := some (stretch 0 k), exit := some (.constant bound),
    changes := k + 1, pending := [] }

/-- Nothing is known of the counter. -/
def forgotten (k : Nat) : Stage :=
  { head := some .unknown, body := some .unknown, exit := some .unknown, changes := k + 1,
    widened := ["head"], pending := [] }

/-- The last change takes the counter to the bound, and leaves nothing new for the body. -/
theorem comes_converged (hk : (k + 1 : Nat) = l.bound.toInt)
    (hlimit : k + 1 ≤ l.settings.maxFixpointIterations.toNat) : l.Comes (converged l.bound k) := by
  have hlt : k < l.bound.toInt := by omega
  have hrenewed := (comes_round k hlt (Nat.le_of_succ_le hlimit)).goes (goes_renewed hlt hlimit)
  let left : Stage :=
    { renewed (k + 1) (some (stretch 0 k)) with exit := some (.constant l.bound), pending := [3] }
  have hleft : l.Comes left := hrenewed.goes
    (goes_exit_first (x := renewed (k + 1) (some (stretch 0 k))) rfl
      ((arrives?_exit rfl).trans (assume?_ge_of_eq hk)) rfl)
  have hlast : min ((k + 1 : Nat) : Int) (l.bound.toInt - 1) = k := by omega
  have harrives : l.arrives? left "body" = some (l.store (stretch 0 k)) := by
    rw [arrives?_body rfl, assume?_lt (Int.le_of_eq hk), hlast]
  exact hleft.goes (goes_body_covered (x := left) rfl harrives rfl)

/-- One change too many, and the counter is forgotten everywhere. -/
theorem comes_forgotten (hk : k < l.bound.toInt)
    (hlimit : l.settings.maxFixpointIterations.toNat = k) : l.Comes (forgotten k) := by
  have hle : (k + 1 : Nat) ≤ l.bound.toInt := by omega
  let widened : Stage :=
    { round k with head := some .unknown, changes := k + 1, widened := ["head"], pending := [2, 3] }
  let left : Stage := { widened with exit := some .unknown, pending := [3] }
  let again : Stage := { left with body := some .unknown, pending := [1] }
  have hwidened : l.Comes widened := (comes_round k hk hlimit.ge).goes
    (goes_head_widened (x := round k) rfl (arrives?_head_round hk) rfl
      (stretch_join_of_le (Nat.le_succ k) hle) (stretch_ne (Nat.lt_succ_self k) hle)
      (hlimit ▸ Nat.lt_succ_self k) rfl (stretch_ne_unknown (words_zero hk.le)))
  have hleft : l.Comes left := hwidened.goes
    (goes_exit_first (x := widened) rfl ((arrives?_exit rfl).trans (assume?_unknown .ge)) rfl)
  have hne : (stretch 0 k).add (.constant 1) ≠ .unknown := by
    rw [stretch_add_one hk]
    exact stretch_ne_unknown (words_one hk)
  have hagain : l.Comes again := hleft.goes
    (goes_body_changed (x := left) rfl ((arrives?_body rfl).trans (assume?_unknown .lt)) rfl
      (join_unknown _) hne)
  exact hagain.goes (goes_head_covered (x := again) rfl (arrives?_head.trans rfl) rfl)

/-! ## What is found -/

/-- At the start of the block this is known of the counter and of the size of the buffer. -/
def Knows (r : Solution) (id : String) (counter size : Interval) : Prop :=
  ∃ s, r.entries[id]? = some s ∧ s.get? "i" = some (.scalar counter) ∧
    (s.pointer? "buf").bind Pointer.size? = some size

/-- The propagation ends with this knowledge of the counter at the head, in the body and at the exit,
and has widened these blocks. -/
structure Finds (l : CountingLoop) (atHead inBody atExit : Interval) (widened : List String) :
    Prop where
  /-- at the head -/
  head : Knows (l.flow.propagate l.settings) "head" atHead (.constant l.capacity)
  /-- in the body -/
  body : Knows (l.flow.propagate l.settings) "body" inBody (.constant l.capacity)
  /-- at the exit -/
  exit : Knows (l.flow.propagate l.settings) "exit" atExit (.constant l.capacity)
  /-- the one access -/
  accesses_eq : (l.flow.propagate l.settings).accesses = [l.access inBody]
  /-- the widened blocks -/
  widened_eq : (l.flow.propagate l.settings).widened = widened

theorem Finds.verdicts {atHead inBody atExit : Interval} {widened : List String}
    (h : l.Finds atHead inBody atExit widened) (policy : StraddlePolicy) :
    (l.flow.propagate l.settings).accesses.map (Checker.bounds policy).classify =
      [policy.classify (.constant l.capacity) inBody] := by
  rw [h.accesses_eq]
  rfl

/-- Where the propagation comes to a last stage, that is what it finds. -/
theorem Comes.finds {atHead inBody atExit : Interval} (hcomes : l.Comes x)
    (hhead : x.head = some atHead) (hbody : x.body = some inBody) (hexit : x.exit = some atExit)
    (hpending : x.pending = []) : l.Finds atHead inBody atExit x.widened := by
  have hshows := (Progress.Shows.start l.flow l.settings).finish hcomes hpending
  have hentries : ∀ id, (l.flow.propagate l.settings).entries[id]? = (l.snapshot x).store? id :=
    hshows.fits.entries_eq
  have hknows : ∀ {id i}, (l.snapshot x).store? id = some (l.store i) →
      Knows (l.flow.propagate l.settings) id i (.constant l.capacity) :=
    fun hid => ⟨_, (hentries _).trans hid, store_get?_i, by rw [store_pointer?_buf]; rfl⟩
  have hinside : (l.flow.propagate l.settings).entries[body.id]? =
      some (l.store inBody) :=
    (hentries _).trans (congrArg (Option.map l.store) hbody)
  refine ⟨hknows (congrArg (Option.map l.store) hhead), hknows (congrArg (Option.map l.store) hbody),
    hknows (congrArg (Option.map l.store) hexit), ?_, hshows.fits.widened_eq⟩
  have horder : l.flow.order =
      [entry l.capacity, head l.bound, exit, body] := rfl
  have hseen : (l.flow.propagate l.settings).accesses =
      l.flow.observe (l.flow.propagate l.settings).entries
        fun b s => b.accesses l.settings l.name s := rfl
  rw [hseen, Flow.observe, horder]
  simp only [List.flatMap_cons, List.flatMap_nil, hinside, accesses_body]
  -- the other blocks make no access, whether they are reached or not
  generalize (l.flow.propagate l.settings).entries = entries
  cases entries[(entry l.capacity).id]? <;> cases entries[(head l.bound).id]? <;>
    cases entries[exit.id]? <;> rfl

variable (l)

theorem finds_converged (hlimit : l.bound.toInt ≤ l.settings.maxFixpointIterations.toNat) :
    l.Finds (stretch 0 l.bound.toInt) (stretch 0 (l.bound.toInt - 1)) (.constant l.bound) [] := by
  have hbound := l.one_le_bound
  obtain ⟨k, hk⟩ : ∃ k : Nat, (k + 1 : Nat) = l.bound.toInt :=
    ⟨(l.bound.toInt - 1).toNat, by omega⟩
  have hpred : (k : Int) = l.bound.toInt - 1 := by omega
  rw [← hpred, ← hk]
  exact (comes_converged hk (by omega)).finds rfl rfl rfl rfl

theorem finds_forgotten (hlimit : l.settings.maxFixpointIterations.toNat < l.bound.toInt) :
    l.Finds .unknown .unknown .unknown ["head"] :=
  (comes_forgotten hlimit rfl).finds rfl rfl rfl rfl

/-! ## Up to the limit -/

theorem toInt_bound_sub_one : (l.bound - 1).toInt = l.bound.toInt - 1 := by
  have hbound := l.one_le_bound
  have hhigh := l.bound.toInt_lt
  rw [Int64.toInt_sub]
  refine Int.bmod_eq_of_le ?_ ?_
  · change _ ≤ l.bound.toInt - 1
    omega
  · change l.bound.toInt - 1 < _
    omega

theorem stretch_bound : stretch 0 l.bound.toInt = .range (.finite 0) (.finite l.bound) :=
  stretch_of_lt (a := 0) l.one_le_bound

/-- In the body of a loop that is run once the counter is zero. -/
theorem stretch_bound_sub_one : stretch 0 (l.bound.toInt - 1) =
    if l.bound = 1 then .constant 0 else .range (.finite 0) (.finite (l.bound - 1)) := by
  have hbound := l.one_le_bound
  have hone : l.bound = 1 ↔ l.bound.toInt = 1 := Int64.toInt_inj.symm
  split
  · rename_i heq
    rw [hone.mp heq]
    exact stretch_zero
  · rename_i hne
    rw [hone] at hne
    rw [← l.toInt_bound_sub_one]
    refine stretch_of_lt (a := 0) ?_
    rw [l.toInt_bound_sub_one]
    change 0 < _
    omega

/-- The verdict on an index that is found to be below the bound. -/
theorem classify_below_bound (policy : StraddlePolicy) :
    policy.classify (.constant l.capacity) (stretch 0 (l.bound.toInt - 1)) =
      if l.bound.toInt ≤ l.capacity.toInt then .inBounds
      else if l.capacity.toInt ≤ 0 ∨ policy = .reportMayOverflow then .outOfBounds
      else .indeterminate := by
  have hbound := l.one_le_bound
  have hpred := l.toInt_bound_sub_one
  have hlast : l.bound.toInt - 1 < l.capacity.toInt ↔ l.bound.toInt ≤ l.capacity.toInt := by omega
  rw [← hpred, StraddlePolicy.classify_stretch (by omega), hpred]
  simp only [hlast]

/-- Up to the limit the access is judged by an index below the bound. -/
theorem verdicts_of_le (hlimit : l.bound.toInt ≤ l.settings.maxFixpointIterations.toNat)
    (policy : StraddlePolicy) :
    (l.flow.propagate l.settings).accesses.map (Checker.bounds policy).classify =
      [if l.bound.toInt ≤ l.capacity.toInt then .inBounds
        else if l.capacity.toInt ≤ 0 ∨ policy = .reportMayOverflow then .outOfBounds
        else .indeterminate] := by
  rw [(l.finds_converged hlimit).verdicts, l.classify_below_bound]

/-- **The counting loop converges exactly up to the limit.** Let a loop count from zero up to a bound
of at least one and index a buffer with its counter, let conditions narrow, and let `malloc` be an
allocator. Nothing is widened exactly if the bound is within the limit on changes. Then the counter
is known to go up to the bound at the head and to stay below it in the body, and to be the bound at
the exit; the access is in bounds exactly if the bound is at most the size of the buffer, and
otherwise it is out of bounds if what may overflow is reported or the buffer has no element at all.
Beyond the limit exactly the head is widened, nothing is known of the counter there and in the body,
the size of the buffer is known still, and nothing is decided. -/
theorem converges_up_to_limit (name : String) (capacity bound : Int64) (settings : Settings)
    (hbound : 1 ≤ bound.toInt) (hnarrow : settings.branchNarrowing = true)
    (hmalloc : settings.isAllocator "malloc" = true) :
    ∃ g, Flow.ofFunction (.countingLoop name capacity bound) = .ok g ∧
      let r := g.propagate settings
      let limit : Int := settings.maxFixpointIterations.toNat
      let verdicts (policy : StraddlePolicy) := r.accesses.map (Checker.bounds policy).classify
      (r.widened = [] ↔ bound.toInt ≤ limit) ∧
      (bound.toInt ≤ limit →
        Knows r "head" (.range (.finite 0) (.finite bound)) (.constant capacity) ∧
        Knows r "body"
          (if bound = 1 then .constant 0 else .range (.finite 0) (.finite (bound - 1)))
          (.constant capacity) ∧
        Knows r "exit" (.constant bound) (.constant capacity) ∧
        (∀ policy, verdicts policy = [.inBounds] ↔ bound.toInt ≤ capacity.toInt) ∧
        (capacity.toInt < bound.toInt →
          verdicts .reportMayOverflow = [.outOfBounds] ∧
          verdicts .indeterminate =
            [if capacity.toInt ≤ 0 then .outOfBounds else .indeterminate])) ∧
      (limit < bound.toInt →
        r.widened = ["head"] ∧
        Knows r "head" .unknown (.constant capacity) ∧
        Knows r "body" .unknown (.constant capacity) ∧
        ∀ policy, verdicts policy = [.indeterminate]) := by
  let l : CountingLoop := ⟨name, capacity, bound, settings, hbound, hnarrow, hmalloc⟩
  refine ⟨l.flow, Flow.ofFunction_eq_ok_iff.mpr rfl, ?_⟩
  intro r limit verdicts
  refine ⟨⟨fun hwidened => ?_, fun hle => ?_⟩, fun hle => ?_, fun hlt => ?_⟩
  · by_contra hlt
    cases hwidened.symm.trans (l.finds_forgotten (Int.not_le.mp hlt)).widened_eq
  · exact (l.finds_converged hle).widened_eq
  · have hfinds := l.finds_converged hle
    have hverdicts : ∀ policy, verdicts policy = [if bound.toInt ≤ capacity.toInt then .inBounds
        else if capacity.toInt ≤ 0 ∨ policy = .reportMayOverflow then .outOfBounds
        else .indeterminate] := l.verdicts_of_le hle
    refine ⟨l.stretch_bound ▸ hfinds.head, l.stretch_bound_sub_one ▸ hfinds.body, hfinds.exit,
      fun policy => ?_, fun hlt => ⟨?_, ?_⟩⟩
    · rw [hverdicts]
      by_cases hfits : bound.toInt ≤ capacity.toInt
      · simp [hfits]
      · simp only [hfits, if_false, iff_false]
        split <;> simp
    · rw [hverdicts, if_neg (Int.not_le.mpr hlt), if_pos (Or.inr rfl)]
    · rw [hverdicts, if_neg (Int.not_le.mpr hlt)]
      simp
  · have hfinds := l.finds_forgotten hlt
    exact ⟨hfinds.widened_eq, hfinds.head, hfinds.body, hfinds.verdicts⟩

/-- A loop over all ten elements of a buffer: ten changes are within the limit of the default
settings, and too many for a limit of three. -/
theorem converges_up_to_limit_ten :
    let three : Settings := { (default : Settings) with maxFixpointIterations := 3 }
    (1 ≤ (10 : Int64).toInt ∧ (default : Settings).branchNarrowing = true ∧
      (default : Settings).isAllocator "malloc" = true) ∧
    ∃ g, Flow.ofFunction (.countingLoop "tenElements" 10 10) = .ok g ∧
      (g.propagate default).widened = [] ∧
      (g.propagate default).accesses.map (Checker.bounds .indeterminate).classify = [.inBounds] ∧
      (g.propagate three).widened = ["head"] ∧
      (g.propagate three).accesses.map (Checker.bounds .indeterminate).classify =
        [.indeterminate] := by
  intro three
  have hbound : 1 ≤ (10 : Int64).toInt := by decide
  have hnarrow : (default : Settings).branchNarrowing = true := rfl
  have hmalloc : (default : Settings).isAllocator "malloc" = true := rfl
  obtain ⟨g, hg, hwidened, hconverged, -⟩ :=
    converges_up_to_limit "tenElements" 10 10 default hbound hnarrow hmalloc
  obtain ⟨g', hg', -, -, hforgotten⟩ :=
    converges_up_to_limit "tenElements" 10 10 three hbound rfl rfl
  obtain rfl : g = g' := Except.ok.inj (hg.symm.trans hg')
  obtain ⟨-, -, -, hverdicts, -⟩ := hconverged (by decide)
  obtain ⟨hhead, -, -, hverdicts'⟩ := hforgotten (by decide)
  exact ⟨⟨hbound, hnarrow, hmalloc⟩, g, hg, hwidened.mpr (by decide),
    (hverdicts .indeterminate).mpr (by decide), hhead, hverdicts' .indeterminate⟩

end CountingLoop

end BufferBounds
