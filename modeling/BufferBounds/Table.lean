import Std.Data.ExtTreeMap
import Std.Data.ExtTreeSet

/-!
# Tables

Finite maps keyed by names, listed in the order of the names by code point. Two tables that hold
the same entries are equal, whatever was done to build them, so equality of tables can be decided
and is what it should be.
-/

namespace BufferBounds

/-- A finite map from names. -/
abbrev Table (β : Type) := Std.ExtTreeMap String β

/-- Equality of finite maps can be decided, as equal maps have equal entries. -/
instance decidableEqExtTreeMap {α : Type} {β : Type} {cmp : α → α → Ordering}
    [Std.TransCmp cmp] [Std.LawfulEqCmp cmp] [DecidableEq β] :
    DecidableEq (Std.ExtTreeMap α β cmp) :=
  fun s t => decidable_of_iff (s == t) beq_iff_eq

/-- Equality of finite sets can be decided, as equal sets have equal members. -/
instance decidableEqExtTreeSet {α : Type} {cmp : α → α → Ordering} [Std.TransCmp cmp]
    [Std.LawfulEqCmp cmp] :
    DecidableEq (Std.ExtTreeSet α cmp) :=
  fun s t => decidable_of_iff (s == t) beq_iff_eq

namespace Table

variable {β : Type}

/-- A name belongs to a table exactly if there is an entry for it. -/
theorem mem_iff_exists {t : Table β} {k : String} : k ∈ t ↔ ∃ x, t[k]? = some x := by
  rw [Std.ExtTreeMap.mem_iff_isSome_getElem?, Option.isSome_iff_exists]

theorem mem_of_eq_some {t : Table β} {k : String} {x : β} (h : t[k]? = some x) : k ∈ t :=
  mem_iff_exists.mpr ⟨x, h⟩

/-- Puts `y` under `k`, combined with what is there already. -/
def combine (f : β → β → β) (s : Table β) (k : String) (y : β) : Table β :=
  s.alter k fun
    | none => some y
    | some x => some (f x y)

/-- The entries of both tables; where both have one, the two are combined. -/
def join (f : β → β → β) (s t : Table β) : Table β :=
  t.foldl (combine f) s

/-- The entry of two combined tables, by the entries of each. -/
def joinEntry (f : β → β → β) : Option β → Option β → Option β
  | some x, some y => some (f x y)
  | some x, none => some x
  | none, y => y

@[simp] theorem joinEntry_none_right (f : β → β → β) (x : Option β) :
    joinEntry f x none = x := by
  cases x <;> rfl

theorem getElem?_combine (f : β → β → β) (s : Table β) (k k' : String) (y : β) :
    (combine f s k y)[k']? = if k = k' then joinEntry f s[k]? (some y) else s[k']? := by
  rw [combine]
  rw [Std.ExtTreeMap.getElem?_alter]
  simp only [Std.LawfulEqCmp.compare_eq_iff_eq]
  split
  · cases s[k]? <;> rfl
  · rfl

theorem getElem?_foldl_combine_of_notMem (f : β → β → β) (k : String) :
    ∀ (l : List (String × β)) (s : Table β), k ∉ l.map Prod.fst →
      (l.foldl (fun s p => combine f s p.1 p.2) s)[k]? = s[k]?
  | [], _, _ => rfl
  | p :: l, s, h => by
    simp only [List.map_cons, List.mem_cons, not_or] at h
    rw [List.foldl_cons, getElem?_foldl_combine_of_notMem f k l _ h.2, getElem?_combine,
      if_neg (Ne.symm h.1)]

theorem getElem?_foldl_combine_of_mem (f : β → β → β) (k : String) (y : β) :
    ∀ (l : List (String × β)) (s : Table β), (l.map Prod.fst).Nodup → (k, y) ∈ l →
      (l.foldl (fun s p => combine f s p.1 p.2) s)[k]? = joinEntry f s[k]? (some y)
  | [], _, _, h => nomatch h
  | p :: l, s, hd, h => by
    simp only [List.map_cons, List.nodup_cons] at hd
    rw [List.foldl_cons]
    rcases List.mem_cons.mp h with rfl | h
    · rw [getElem?_foldl_combine_of_notMem f k l _ hd.1, getElem?_combine, if_pos rfl]
    · have hp : p.1 ≠ k := fun hp => hd.1 (List.mem_map.mpr ⟨(k, y), h, hp.symm⟩)
      rw [getElem?_foldl_combine_of_mem f k y l _ hd.2 h, getElem?_combine, if_neg hp]

theorem nodup_keys_toList (t : Table β) : (t.toList.map Prod.fst).Nodup := by
  rw [List.nodup_iff_pairwise_ne, List.pairwise_map]
  exact t.distinct_keys_toList.imp fun h he => h (by rw [he]; exact Std.ReflCmp.compare_self)

/-- Joining tables joins their entries. -/
@[simp] theorem getElem?_join (f : β → β → β) (s t : Table β) (k : String) :
    (join f s t)[k]? = joinEntry f s[k]? t[k]? := by
  rw [join]
  rw [Std.ExtTreeMap.foldl_eq_foldl_toList]
  cases h : t[k]? with
  | some y =>
    exact getElem?_foldl_combine_of_mem f k y _ s (nodup_keys_toList t)
      (Std.ExtTreeMap.mem_toList_iff_getElem?_eq_some.mpr h)
  | none =>
    rw [joinEntry_none_right]
    apply getElem?_foldl_combine_of_notMem
    intro hk
    obtain ⟨p, hp, rfl⟩ := List.mem_map.mp hk
    rw [Std.ExtTreeMap.mem_toList_iff_getElem?_eq_some.mp hp] at h
    cases h

end Table

end BufferBounds
