import BufferBounds.Table
import BufferBounds.Yaml.Datum

/-!
# Overlays

What a patch laid over a mapping does to the value of a key. Where the keys are texts both are
lists of named fields, and an overlay is told by its lookups: a name of the patch alone has the
value there, a name of the mapping alone keeps its value, and where both have it the value of the
patch is laid over the old one. This needs that the patch names no key twice, which holds of all
data that are read (`Datum.distinct_of_ofNode?`).
-/

namespace BufferBounds

namespace Yaml.Datum

/-! ## Named fields -/

/-- Fields whose keys are texts. -/
def named (fields : List (String × Datum)) : List (Datum × Datum) :=
  fields.map fun field => (.text field.1, field.2)

@[simp] theorem named_nil : named [] = [] := rfl

@[simp] theorem named_cons (name : String) (value : Datum) (fields : List (String × Datum)) :
    named ((name, value) :: fields) = (.text name, value) :: named fields := rfl

theorem named_append (fields fields' : List (String × Datum)) :
    named (fields ++ fields') = named fields ++ named fields' :=
  List.map_append

/-- Only a text is the same as a text. -/
theorem same_text_iff {key : Datum} {name : String} :
    key.same (.text name) = true ↔ key = .text name := by
  cases key <;> simp [same]

theorem lookup_cons_eq_ite (name first : String) (value : Datum) (fields : List (String × Datum)) :
    ((first, value) :: fields).lookup name =
      if name = first then some value else fields.lookup name := by
  rw [List.lookup_cons]
  by_cases h : name = first
  · rw [if_pos h, beq_iff_eq.mpr h]
  · rw [if_neg h, beq_eq_false_iff_ne.mpr h]

theorem get?_named (fields : List (String × Datum)) (name : String) :
    get? (named fields) (.text name) = fields.lookup name := by
  induction fields with
  | nil => rfl
  | cons field fields ih =>
    rw [get?] at ih ⊢
    rw [named_cons, List.find?_cons, List.lookup_cons, same]
    cases name == field.1 with
    | true => rfl
    | false => exact ih

/-- Fields with texts as keys are a record. -/
theorem record?_named (fields : List (String × Datum)) :
    record? (.mapping (named fields)) = some fields := by
  rw [record?]
  induction fields with
  | nil => rfl
  | cons field fields ih =>
    rw [named_cons, List.mapM_cons, ih]
    rfl

theorem named_injective {fields fields' : List (String × Datum)}
    (h : named fields = named fields') : fields = fields' := by
  have hrecord := record?_named fields
  rw [h, record?_named] at hrecord
  exact (Option.some.inj hrecord).symm

/-- A mapping that is a record has texts as keys. -/
theorem eq_named_of_record? {fields : List (Datum × Datum)} {r : List (String × Datum)}
    (h : record? (.mapping fields) = some r) : fields = named r := by
  rw [record?] at h
  induction fields generalizing r with
  | nil =>
    obtain rfl : r = [] := by simpa using h.symm
    rfl
  | cons field fields ih =>
    obtain ⟨key, value⟩ := field
    rw [List.mapM_cons] at h
    obtain ⟨field, hfield, h⟩ := Option.bind_eq_some_iff.mp h
    obtain ⟨rest, hrest, h⟩ := Option.bind_eq_some_iff.mp h
    obtain rfl := Option.some.inj h
    split at hfield
    · rename_i name value heq
      cases heq
      rw [← Option.some.inj hfield, named_cons, ih hrest]
    · cases hfield

/-! ## Keys after an overlay -/

theorem named_of_put {key value : Datum} {fields : List (Datum × Datum)}
    {r : List (String × Datum)} (h : put key value fields = named r) :
    (∃ name, key = .text name) ∧ ∃ r', fields = named r' := by
  induction fields generalizing r with
  | nil =>
    cases r with
    | nil => cases h
    | cons field r =>
      obtain ⟨h, -⟩ := List.cons.inj h
      exact ⟨⟨field.1, congrArg Prod.fst h⟩, [], rfl⟩
  | cons field fields ih =>
    obtain ⟨key', old⟩ := field
    rw [put] at h
    cases r with
    | nil => split at h <;> cases h
    | cons field r =>
      split at h
      · rename_i hsame
        obtain ⟨hfield, rfl⟩ := List.cons.inj h
        obtain ⟨rfl, -⟩ := Prod.mk.inj hfield
        exact ⟨⟨field.1, same_text_iff.mp hsame⟩, (field.1, old) :: r, rfl⟩
      · obtain ⟨hfield, hrest⟩ := List.cons.inj h
        obtain ⟨rfl, -⟩ := Prod.mk.inj hfield
        obtain ⟨hkey, r', rfl⟩ := ih hrest
        exact ⟨hkey, (field.1, old) :: r', rfl⟩

/-- An overlay keeps every key, so where only texts are keys afterwards the patch has no others. -/
theorem named_of_overlayFields {fields patch : List (Datum × Datum)} {r : List (String × Datum)}
    (h : overlayFields fields patch = named r) :
    (∃ r', fields = named r') ∧ ∃ p, patch = named p := by
  induction patch generalizing fields with
  | nil => exact ⟨⟨r, h⟩, [], rfl⟩
  | cons field patch ih =>
    obtain ⟨key, value⟩ := field
    rw [overlayFields] at h
    split at h
    · obtain ⟨⟨r', hput⟩, p, rfl⟩ := ih h
      obtain ⟨⟨name, rfl⟩, hfields⟩ := named_of_put hput
      exact ⟨hfields, (name, value) :: p, rfl⟩
    · obtain ⟨⟨r', happend⟩, p, rfl⟩ := ih h
      obtain ⟨l, m, rfl, rfl, hm⟩ := List.append_eq_map_iff.mp happend
      cases m with
      | nil => cases hm
      | cons field m =>
        obtain ⟨hkey, -⟩ := List.cons.inj hm
        obtain rfl : .text field.1 = key := congrArg Prod.fst hkey
        exact ⟨⟨l, rfl⟩, (field.1, value) :: p, rfl⟩

/-! ## Lookups after an overlay -/

theorem exists_put_named (fields : List (String × Datum)) (name : String) (value : Datum) :
    ∃ fields', put (.text name) value (named fields) = named fields' ∧
      ∀ name', fields'.lookup name' = if name' = name then some value else fields.lookup name' := by
  induction fields with
  | nil => exact ⟨[(name, value)], rfl, fun name' => lookup_cons_eq_ite ..⟩
  | cons field fields ih =>
    obtain ⟨first, old⟩ := field
    by_cases h : name = first
    · subst h
      refine ⟨(name, value) :: fields, by simp [put, same], fun name' => ?_⟩
      rw [lookup_cons_eq_ite, lookup_cons_eq_ite]
      split <;> rfl
    · obtain ⟨fields', hput, hlookup⟩ := ih
      refine ⟨(first, old) :: fields', by simp [put, same, h, hput], fun name' => ?_⟩
      rw [lookup_cons_eq_ite, lookup_cons_eq_ite, hlookup]
      grind

/-- What a name stands for after an overlay. -/
theorem exists_overlayFields_named {patch : List (String × Datum)}
    (h : (patch.map Prod.fst).Nodup) (fields : List (String × Datum)) :
    ∃ r, overlayFields (named fields) (named patch) = named r ∧
      ∀ name, r.lookup name = Table.joinEntry overlay (fields.lookup name) (patch.lookup name) := by
  induction patch generalizing fields with
  | nil => exact ⟨fields, rfl, fun name => (Table.joinEntry_none_right ..).symm⟩
  | cons field patch ih =>
    obtain ⟨name, value⟩ := field
    obtain ⟨hname, hpatch⟩ := List.nodup_cons.mp h
    have hmissing : patch.lookup name = none := by
      refine List.lookup_eq_none_iff.mpr fun field hfield => bne_iff_ne.mpr ?_
      exact fun heq => hname (List.mem_map.mpr ⟨field, hfield, heq.symm⟩)
    rw [named_cons, overlayFields, get?_named]
    cases hold : fields.lookup name with
    | some old =>
      obtain ⟨fields', hput, hlookup⟩ := exists_put_named fields name (overlay old value)
      obtain ⟨r, hr, hrlookup⟩ := ih hpatch fields'
      refine ⟨r, by simp only [hput, hr], fun name' => ?_⟩
      rw [hrlookup, hlookup, lookup_cons_eq_ite]
      split
      · rename_i heq
        rw [heq, hmissing, hold]
        rfl
      · rfl
    | none =>
      obtain ⟨r, hr, hrlookup⟩ := ih hpatch (fields ++ [(name, value)])
      refine ⟨r, by simpa only [named_append, named_cons, named_nil] using hr, fun name' => ?_⟩
      rw [hrlookup, List.lookup_append, lookup_cons_eq_ite, lookup_cons_eq_ite]
      split
      · rename_i heq
        rw [heq, hmissing, hold]
        rfl
      · rw [List.lookup_nil, Option.or_none]

/-! ## Data that are read -/

/-- No mapping in the datum names a key twice. -/
inductive Distinct : Datum → Prop where
  /-- nothing -/
  | null : Distinct .null
  /-- a truth value -/
  | bool (value : Bool) : Distinct (.bool value)
  /-- an integer -/
  | integer (value : Int) : Distinct (.integer value)
  /-- another number -/
  | decimal (text : String) : Distinct (.decimal text)
  /-- a text -/
  | text (value : String) : Distinct (.text value)
  /-- a list, of which this holds of every item -/
  | sequence {items : List Datum} (items_distinct : ∀ item ∈ items, Distinct item) :
      Distinct (.sequence items)
  /-- a mapping, of which this holds of every value, and no two keys are the same -/
  | mapping {fields : List (Datum × Datum)} (values_distinct : ∀ field ∈ fields, Distinct field.2)
      (keys_distinct : fields.Pairwise fun field later => later.1.same field.1 = false) :
      Distinct (.mapping fields)

theorem Distinct.nodup_named {fields : List (String × Datum)}
    (h : Distinct (.mapping (named fields))) : (fields.map Prod.fst).Nodup := by
  cases h with
  | mapping values_distinct keys_distinct =>
    rw [named, List.pairwise_map] at keys_distinct
    rw [List.nodup_iff_pairwise_ne, List.pairwise_map]
    refine keys_distinct.imp fun {field later} hsame heq => ?_
    rw [heq, same, beq_self_eq_true] at hsame
    cases hsame

/-- What an overlay of a record leaves is no record if the patch is none. -/
theorem record?_overlay_eq_none {patch : List (Datum × Datum)} (h : ∀ p, patch ≠ named p)
    (fields : List (String × Datum)) :
    (overlay (.mapping (named fields)) (.mapping patch)).record? = none := by
  rw [overlay, Option.eq_none_iff_forall_ne_some]
  intro r hr
  obtain ⟨-, p, hp⟩ := named_of_overlayFields (eq_named_of_record? hr)
  exact h p hp

/-- A record laid over a record is a record again, which is told by its lookups. -/
theorem exists_record?_overlay {patch : List (String × Datum)}
    (h : Distinct (.mapping (named patch))) (fields : List (String × Datum)) :
    ∃ r, (overlay (.mapping (named fields)) (.mapping (named patch))).record? = some r ∧
      ∀ name, r.lookup name = Table.joinEntry overlay (fields.lookup name) (patch.lookup name) := by
  obtain ⟨r, hr, hlookup⟩ := exists_overlayFields_named h.nodup_named fields
  refine ⟨r, ?_, hlookup⟩
  rw [overlay, hr, record?_named]

theorem Distinct.of_lookup {fields : List (String × Datum)} {name : String} {d : Datum}
    (h : Distinct (.mapping (named fields))) (hd : fields.lookup name = some d) : d.Distinct := by
  cases h with
  | mapping values_distinct keys_distinct =>
    obtain ⟨l, m, rfl, -⟩ := List.lookup_eq_some_iff.mp hd
    refine values_distinct (.text name, d) (List.mem_map.mpr ⟨(name, d), ?_, rfl⟩)
    exact List.mem_append_right _ (List.mem_cons_self ..)

theorem distinct_ofWord (word : String) : (ofWord word).Distinct := by
  rw [ofWord]
  split
  · exact .decimal word
  · exact .text word

theorem distinct_of_ofPlain? {word : String} {d : Datum} (h : ofPlain? word = some d) :
    d.Distinct := by
  rw [ofPlain?.eq_def] at h
  split at h
  case h_12 =>
    split at h
    · rename_i n _
      split at h
      · exact Option.some.inj h ▸ .integer n
      · split at h
        · cases h
        · exact Option.some.inj h ▸ distinct_ofWord word
    · exact Option.some.inj h ▸ distinct_ofWord word
  all_goals
    rw [← Option.some.inj h]
    constructor

theorem distinct_of_ofScalar? {s : Scalar} {d : Datum} (h : ofScalar? s = some d) :
    d.Distinct := by
  rw [ofScalar?] at h
  split at h
  · exact distinct_of_ofPlain? h
  · exact Option.some.inj h ▸ .text s.text

mutual

/-- Whatever a node stands for names no key twice. -/
theorem distinct_of_ofNode? : ∀ (node : Node) (d : Datum), ofNode? node = some d → d.Distinct
  | .scalar s, d, h => by
    rw [ofNode?] at h
    exact distinct_of_ofScalar? h
  | .sequence items, d, h => by
    rw [ofNode?] at h
    obtain ⟨ds, hds, rfl⟩ := Option.map_eq_some_iff.mp h
    exact .sequence (distinct_of_ofItems? items ds hds)
  | .mapping fields, d, h => by
    rw [ofNode?] at h
    obtain ⟨ds, hds, rfl⟩ := Option.map_eq_some_iff.mp h
    obtain ⟨hvalues, hkeys⟩ := distinct_of_ofFields? fields [] ds (by simp) .nil hds
    exact .mapping hvalues hkeys

theorem distinct_of_ofItems? : ∀ (items : List Node) (ds : List Datum),
    ofItems? items = some ds → ∀ d ∈ ds, d.Distinct
  | [], ds, h => by
    rw [ofItems?] at h
    obtain rfl := Option.some.inj h
    exact fun d hd => nomatch hd
  | item :: items, ds, h => by
    rw [ofItems?] at h
    obtain ⟨d, hd, h⟩ := Option.bind_eq_some_iff.mp h
    obtain ⟨rest, hrest, h⟩ := Option.bind_eq_some_iff.mp h
    obtain rfl := Option.some.inj h
    exact List.forall_mem_cons.mpr
      ⟨distinct_of_ofNode? item d hd, distinct_of_ofItems? items rest hrest⟩

theorem distinct_of_ofFields? : ∀ (fields : List (Node × Node)) (read ds : List (Datum × Datum)),
    (∀ field ∈ read, field.2.Distinct) →
    (read.Pairwise fun field later => later.1.same field.1 = false) →
    ofFields? read fields = some ds →
    (∀ field ∈ ds, field.2.Distinct) ∧
      ds.Pairwise fun field later => later.1.same field.1 = false
  | [], read, ds, hvalues, hkeys, h => by
    rw [ofFields?] at h
    obtain rfl := Option.some.inj h
    exact ⟨hvalues, hkeys⟩
  | (key, value) :: fields, read, ds, hvalues, hkeys, h => by
    rw [ofFields?] at h
    obtain ⟨k, hk, h⟩ := Option.bind_eq_some_iff.mp h
    split at h
    · cases h
    · rename_i hnew
      obtain ⟨v, hv, h⟩ := Option.bind_eq_some_iff.mp h
      refine distinct_of_ofFields? fields (read ++ [(k, v)]) ds ?_ ?_ h
      · intro field hfield
        rcases List.mem_append.mp hfield with hfield | hfield
        · exact hvalues field hfield
        · rw [List.mem_singleton.mp hfield]
          exact distinct_of_ofNode? value v hv
      · refine List.pairwise_append.mpr ⟨hkeys, List.pairwise_singleton .., ?_⟩
        intro field hfield later hlater
        rw [List.mem_singleton.mp hlater]
        rw [get?, Option.isSome_map, List.find?_isSome] at hnew
        exact Bool.eq_false_iff.mpr fun hsame => hnew ⟨field, hfield, hsame⟩

end

end Yaml.Datum

end BufferBounds
