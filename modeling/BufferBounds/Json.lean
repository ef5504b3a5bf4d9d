import BufferBounds.Word

/-!
# JSON values

The values of the JSON data format, and the ways in which records, tagged alternatives and words
are read from them.

A record is an object, in which the order of the fields and fields of other names do not matter,
or an array that lists its fields in their declared order. An alternative is the text of its name,
or an object whose one field has that name and holds what the alternative holds; if that is a
record, it must be an object. Other alternatives are records with their name in the field `kind`.

What is part of a record with a kind may be written in two more ways: a kind may be given by its
number among all kinds, and an alternative that holds nothing may hold an empty object.
-/

namespace BufferBounds

/-- A JSON value. -/
inductive Json where
  /-- the value that stands for an absent one -/
  | null
  /-- a truth value -/
  | bool (b : Bool)
  /-- a number written without a fraction or an exponent -/
  | integer (n : Int)
  /-- any other number, as it was written -/
  | decimal (digits : String)
  /-- a text -/
  | text (s : String)
  /-- a list of values -/
  | array (items : List Json)
  /-- named values -/
  | object (fields : List (String × Json))

instance : Inhabited Json := ⟨.null⟩

namespace Json

/-! ## Leaves -/

/-- The truth value, if it is one. -/
def bool? : Json → Option Bool
  | .bool b => some b
  | _ => none

/-- The text, if it is one. -/
def text? : Json → Option String
  | .text s => some s
  | _ => none

/-- The items of an array. -/
def items? : Json → Option (List Json)
  | .array items => some items
  | _ => none

/-- The signed 64-bit word, if it is one. -/
def int64? : Json → Option Int64
  | .integer n => word? n
  | _ => none

/-- The natural number below `bound`, if it is one. -/
def natBelow? (bound : Nat) : Json → Option Nat
  | .integer (.ofNat n) => if n < bound then some n else none
  | _ => none

/-- The unsigned 32-bit word, if it is one. -/
def uint32? (j : Json) : Option UInt32 :=
  (j.natBelow? UInt32.size).map UInt32.ofNat

/-- The unsigned 64-bit word, if it is one. -/
def uint64? (j : Json) : Option UInt64 :=
  (j.natBelow? UInt64.size).map UInt64.ofNat

/-- The count, if it is one that fits 64 bits. -/
def count? (j : Json) : Option Nat := j.natBelow? UInt64.size

/-! ## Records -/

/-- The fields of an object. -/
def object? : Json → Option (List (String × Json))
  | .object fields => some fields
  | _ => none

/-- The fields of a record whose declared fields are `names`. -/
def record? (names : List String) : Json → Option (List (String × Json))
  | .object fields => some fields
  | .array items => if items.length ≤ names.length then some (names.zip items) else none
  | _ => none

/-- The value of a field that may be missing or null. -/
def optional? (fields : List (String × Json)) (name : String) : Option Json :=
  match fields.lookup name with
  | some .null => none
  | value => value

/-! ## Alternatives -/

/-- The name of an alternative and what it holds, if it holds anything. -/
def alternative? : Json → Option (String × Option Json)
  | .text name => some (name, none)
  | .object [(name, value)] => some (name, some value)
  | _ => none

/-- The name of an alternative that holds nothing. -/
def plain? (j : Json) : Option String :=
  match j.alternative? with
  | some (name, none) => some name
  | some (name, some .null) => some name
  | _ => none

/-- The name of an alternative that holds nothing, as part of a record with a kind. -/
def innerPlain? (j : Json) : Option String :=
  match j.alternative? with
  | some (name, some (.object [])) => some name
  | _ => j.plain?

/-- The name of one of the kinds. Only as part of a record with a kind, when `inner` holds, it may
be given by its number. -/
def kindName? (kinds : List String) (inner : Bool) : Json → Option String
  | .text name => some name
  | .integer (.ofNat n) => if inner then kinds[n]? else none
  | _ => none

/-- The kind of a record, and the record with its further fields. In an array the kind comes
first. -/
def kind? (kinds : List String) (inner : Bool) : Json → Option (String × Json)
  | .object fields => do
    let name ← kindName? kinds inner (← fields.lookup "kind")
    return (name, .object fields)
  | .array (tag :: items) => do
    let name ← kindName? kinds inner tag
    return (name, .array items)
  | _ => none

/-! ## Building -/

/-- The value, or null in its place. -/
def ofOption {α : Type} (encode : α → Json) : Option α → Json
  | some a => encode a
  | none => .null

/-- The array of the encoded items. -/
def ofList {α : Type} (encode : α → Json) (items : List α) : Json :=
  .array (items.map encode)

/-- The number of a count. -/
def ofNat (n : Nat) : Json := .integer n

/-! ## Parts are smaller -/

theorem sizeOf_lookup_lt {fields : List (String × Json)} {name : String} {value : Json}
    (h : fields.lookup name = some value) : sizeOf value < sizeOf fields := by
  induction fields with
  | nil => cases h
  | cons field fields ih =>
    obtain ⟨k, v⟩ := field
    rw [List.lookup_cons] at h
    split at h
    · obtain rfl := Option.some.inj h
      simp only [List.cons.sizeOf_spec, Prod.mk.sizeOf_spec]
      omega
    · have := ih h
      simp only [List.cons.sizeOf_spec]
      omega

theorem lookup_zip_mem {names : List String} {items : List Json} {name : String} {value : Json}
    (h : (names.zip items).lookup name = some value) : value ∈ items := by
  induction names generalizing items with
  | nil => cases h
  | cons n names ih =>
    cases items with
    | nil => cases h
    | cons item items =>
      rw [List.zip_cons_cons, List.lookup_cons] at h
      split at h
      · obtain rfl := Option.some.inj h
        exact List.mem_cons_self ..
      · exact List.mem_cons_of_mem _ (ih h)

/-- What a field of a record holds is smaller than the record. -/
theorem sizeOf_field_lt {j : Json} {names : List String} {fields : List (String × Json)}
    {name : String} {value : Json} (hr : j.record? names = some fields)
    (hl : fields.lookup name = some value) : sizeOf value < sizeOf j := by
  rw [record?.eq_def] at hr
  split at hr
  · obtain rfl := Option.some.inj hr
    have := sizeOf_lookup_lt hl
    simp only [object.sizeOf_spec]
    omega
  · split at hr
    · obtain rfl := Option.some.inj hr
      have := List.sizeOf_lt_of_mem (lookup_zip_mem hl)
      simp only [array.sizeOf_spec]
      omega
    · cases hr
  · cases hr

/-- The further fields of a record with a kind are no larger than the record. -/
theorem sizeOf_kind_le {kinds : List String} {inner : Bool} {j body : Json} {name : String}
    (h : j.kind? kinds inner = some (name, body)) : sizeOf body ≤ sizeOf j := by
  rw [kind?.eq_def] at h
  split at h
  · obtain ⟨tag, -, h⟩ := Option.bind_eq_some_iff.mp h
    obtain ⟨name', -, h⟩ := Option.bind_eq_some_iff.mp h
    obtain ⟨-, rfl⟩ := Prod.mk.inj (Option.some.inj h)
    exact Nat.le_refl _
  · obtain ⟨name', -, h⟩ := Option.bind_eq_some_iff.mp h
    obtain ⟨-, rfl⟩ := Prod.mk.inj (Option.some.inj h)
    simp only [array.sizeOf_spec, List.cons.sizeOf_spec]
    omega
  · cases h

end Json

end BufferBounds
