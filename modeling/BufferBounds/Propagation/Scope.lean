import BufferBounds.Flow
import BufferBounds.Transfer

/-!
# The scope of a store

Stores that arise in a function hold only variables that the function assigns. So there is a fixed
finite list of variables that can ever change, which is what bounds the work of the propagation.

`Flow.incomingStore?` is also defined here: the store that reaches the start of a block from its
predecessors.
-/

namespace BufferBounds

/-! ## Scopes -/

namespace Store

/-- The store holds no other variables than these. -/
def Within (vars : List String) (s : Store) : Prop := ∀ var ∈ s, var ∈ vars

variable {vars : List String} {s t : Store}

theorem within_iff : s.Within vars ↔ ∀ var, (s.get? var).isSome → var ∈ vars := by
  simp only [Within, mem_iff_isSome_get?]

theorem within_empty : (∅ : Store).Within vars := by
  simp [within_iff]

theorem Within.mono (h : s.Within vars) {vars' : List String} (hsub : vars ⊆ vars') :
    s.Within vars' :=
  fun var hvar => hsub (h var hvar)

theorem Within.bind (h : s.Within vars) {var : String} (hv : var ∈ vars) (value : Value) :
    (s.bind var value).Within vars := by
  rw [within_iff] at h ⊢
  intro var'
  rw [get?_bind]
  split
  · rename_i he
    exact fun _ => he ▸ hv
  · exact h var'

theorem Within.join (hs : s.Within vars) (ht : t.Within vars) : (s.join t).Within vars := by
  rw [within_iff] at hs ht ⊢
  intro var
  rw [get?_join]
  cases h : s.get? var with
  | some x => exact fun _ => hs var (by rw [h]; rfl)
  | none => exact ht var

theorem Within.widen (h : s.Within vars) (changed : List String) :
    (s.widen changed).Within vars := by
  rw [within_iff] at h ⊢
  intro var
  rw [get?_widen]
  split
  · rw [Option.isSome_map]
    exact h var
  · exact h var

theorem Within.joinAll? {ss : List Store} (h : ∀ s ∈ ss, s.Within vars)
    (hs : joinAll? ss = some s) : s.Within vars := by
  cases ss with
  | nil => cases hs
  | cons s₀ ss =>
    obtain rfl := Option.some.inj hs
    have h₀ := h s₀ (List.mem_cons_self ..)
    have hss := fun s hs => h s (List.mem_cons_of_mem _ hs)
    clear h hs
    induction ss generalizing s₀ with
    | nil => exact h₀
    | cons s₁ ss ih =>
      exact ih _ (h₀.join (hss s₁ (List.mem_cons_self ..)))
        fun s hs => hss s (List.mem_cons_of_mem _ hs)

theorem Within.assign (h : s.Within vars) {target : String} (ht : target ∈ vars) (value : Expr) :
    (s.assign target value).Within vars := by
  rw [Store.assign]
  split
  · exact h.bind ht _
  · split
    · exact h.bind ht _
    · split
      · exact h.bind ht _
      · exact h.bind ht _

/-- A guard binds no variable that was not bound. -/
theorem Within.assume? (h : s.Within vars) {var : String} {op : Comparison} {value : Interval}
    (ht : s.assume? var op value = some t) : t.Within vars := by
  obtain rfl | ⟨current, _, _, hget, -, rfl⟩ := eq_or_eq_bind_of_assume? ht
  · exact h
  · exact h.bind (h var (mem_iff_isSome_get?.mpr (by rw [hget]; rfl))) _

end Store

/-! ## Statements and blocks -/

theorem Statement.target_of_allocation? {settings : Settings} {site : Site} {s : Store}
    {statement : Statement} {a : Allocation} (h : statement.allocation? settings site s = some a) :
    statement.target? = some a.pointer := by
  rw [allocation?.eq_def] at h
  split at h
  · split at h
    · exact (Option.some.inj h) ▸ rfl
    · cases h
  · cases h

/-- A statement binds no variable but its target. -/
theorem Statement.within_after {settings : Settings} {site : Site} {vars : List String} {s : Store}
    {statement : Statement} (h : s.Within vars)
    (ht : ∀ target, statement.target? = some target → target ∈ vars) :
    (statement.after settings site s).Within vars := by
  rw [after.eq_def]
  split
  · rename_i a ha
    exact h.bind (ht _ (target_of_allocation? ha)) _
  · exact h.assign (ht _ rfl) _
  · exact h

/-- A block binds no variables but the targets of its statements. -/
theorem Block.within_transfer {settings : Settings} {b : Block} {vars : List String} {s : Store}
    (h : s.Within vars) (hb : ∀ target ∈ b.targets, target ∈ vars) :
    (b.transfer settings s).Within vars := by
  have hl : ∀ p ∈ b.located, ∀ target, p.2.target? = some target → target ∈ vars := by
    intro p hp target ht
    obtain ⟨⟨statement, place⟩, hmem, rfl⟩ := List.mem_map.mp hp
    exact hb target (List.mem_filterMap.mpr ⟨statement, List.fst_mem_of_mem_zipIdx hmem, ht⟩)
  rw [transfer]
  generalize b.located = l at hl
  induction l generalizing s with
  | nil => exact h
  | cons p l ih =>
    exact ih (Statement.within_after h (hl p (List.mem_cons_self ..)))
      fun p hp => hl p (List.mem_cons_of_mem _ hp)

/-- An edge binds no variable. -/
theorem Block.within_along? {settings : Settings} {b : Block} {kind : EdgeKind}
    {vars : List String} {s t : Store} (h : s.Within vars)
    (ht : b.along? settings kind s = some t) : t.Within vars := by
  rw [along?.eq_def] at ht
  split at ht
  · split at ht
    · exact h.assume? ht
    · exact h.assume? ht
    · exact Option.some.inj ht ▸ h
  · exact Option.some.inj ht ▸ h

/-! ## Flow graphs -/

namespace Flow

/-- The variables that the reachable blocks assign. -/
def assigned (g : Flow) : List String := (g.order.flatMap Block.targets).eraseDups

theorem mem_assigned {g : Flow} {b : Block} (hb : b ∈ g.order) {target : String}
    (ht : target ∈ b.targets) : target ∈ g.assigned :=
  List.mem_eraseDups.mpr (List.mem_flatMap.mpr ⟨b, hb, ht⟩)

/-- The stores that arrive at the start of a block: the empty store if the function starts there,
and one for every edge that can be taken from a block with an exit store. -/
def arriving (g : Flow) (settings : Settings) (exits : Table Store) (id : String) : List Store :=
  (if id = g.function.entry then [∅] else []) ++
    (g.incoming id).filterMap fun (b, kind) => exits[b.id]?.bind (b.along? settings kind)

/-- The join of the stores that arrive at the start of a block, if any does. -/
def incomingStore? (g : Flow) (settings : Settings) (exits : Table Store) (id : String) :
    Option Store :=
  Store.joinAll? (g.arriving settings exits id)

theorem within_of_mem_arriving {g : Flow} {settings : Settings} {exits : Table Store} {id : String}
    {vars : List String} {s : Store}
    (h : ∀ (id : String) (s : Store), exits[id]? = some s → s.Within vars)
    (hs : s ∈ g.arriving settings exits id) : s.Within vars := by
  rcases List.mem_append.mp hs with hs | hs
  · split at hs
    · rw [List.mem_singleton.mp hs]
      exact Store.within_empty
    · cases hs
  · obtain ⟨⟨b, kind⟩, -, hs⟩ := List.mem_filterMap.mp hs
    obtain ⟨exit, hexit, hs⟩ := Option.bind_eq_some_iff.mp hs
    exact Block.within_along? (h b.id exit hexit) hs

theorem within_incomingStore? {g : Flow} {settings : Settings} {exits : Table Store} {id : String}
    {vars : List String} {s : Store}
    (h : ∀ (id : String) (s : Store), exits[id]? = some s → s.Within vars)
    (hs : g.incomingStore? settings exits id = some s) : s.Within vars :=
  Store.Within.joinAll? (fun _ ht => within_of_mem_arriving h ht) hs

end Flow

end BufferBounds
