import BufferBounds.Yaml.Node
import BufferBounds.Yaml.Number

/-!
# YAML data

What a YAML node stands for, once it is decided what its plain scalars mean. No two keys of a
mapping are the same. A patch laid over a mapping changes the fields that it names, at every
depth.

Tags are not read (`Scanner.token?`), so there are no data with a tag.
-/

namespace BufferBounds

namespace Yaml

/-- What a YAML node stands for. -/
inductive Datum where
  /-- nothing -/
  | null
  /-- a truth value -/
  | bool (value : Bool)
  /-- an integer -/
  | integer (value : Int)
  /-- another number, by its text -/
  | decimal (text : String)
  /-- a text -/
  | text (value : String)
  /-- a list of data -/
  | sequence (items : List Datum)
  /-- keys with their values -/
  | mapping (fields : List (Datum × Datum))

namespace Datum

/-! ## Sameness -/

mutual

/-- Do two data stand for the same? The order of fields and the spelling of numbers do not
matter. -/
def same : Datum → Datum → Bool
  | .null, .null => true
  | .bool a, .bool b => a == b
  | .integer a, .integer b => a == b
  | .decimal a, .decimal b => Number.ofWord? a.toList == Number.ofWord? b.toList
  | .text a, .text b => a == b
  | .sequence a, .sequence b => sameItems a b
  | .mapping a, .mapping b => a.length == b.length && hasFields a b
  | _, _ => false

/-- Do two lists stand for the same, item by item? -/
def sameItems : List Datum → List Datum → Bool
  | [], [] => true
  | a :: as, b :: bs => same a b && sameItems as bs
  | _, _ => false

/-- Are all fields of the first list in the second? -/
def hasFields : List (Datum × Datum) → List (Datum × Datum) → Bool
  | [], _ => true
  | (key, value) :: fields, others =>
    others.any (fun other => same key other.1 && same value other.2) && hasFields fields others

end

/-! ## Fields -/

/-- The value of a key. -/
def get? (fields : List (Datum × Datum)) (key : Datum) : Option Datum :=
  (fields.find? fun field => key.same field.1).map (·.2)

/-- Sets the value of a key, in its place or else at the end. -/
def put (key value : Datum) : List (Datum × Datum) → List (Datum × Datum)
  | [] => [(key, value)]
  | field :: fields =>
    if key.same field.1 then (field.1, value) :: fields else field :: put key value fields

/-- The fields of a mapping whose keys are texts; nothing is a mapping without fields. -/
def record? : Datum → Option (List (String × Datum))
  | .null => some []
  | .mapping fields => fields.mapM fun
    | (.text name, value) => some (name, value)
    | _ => none
  | _ => none

/-! ## Patches -/

mutual

/-- A datum with a patch laid over it. A mapping over a mapping changes the fields that it names;
anything else replaces what was there. -/
def overlay (base : Datum) : Datum → Datum
  | .mapping patch =>
    match base with
    | .mapping fields => .mapping (overlayFields fields patch)
    | _ => .mapping patch
  | patch => patch

/-- Fields with the fields of a patch laid over them. -/
def overlayFields (fields : List (Datum × Datum)) :
    List (Datum × Datum) → List (Datum × Datum)
  | [] => fields
  | (key, value) :: patch =>
    match get? fields key with
    | some old => overlayFields (put key (overlay old value) fields) patch
    | none => overlayFields (fields ++ [(key, value)]) patch

end

/-! ## Reading -/

/-- The number or the text that a plain word stands for, if it is no integer. -/
def ofWord (word : String) : Datum :=
  if !hasLeadingZero word.toList && (Number.ofWord? word.toList).isSome then .decimal word
  else .text word

/-- What a plain word stands for. An integer of more than 64 bits is refused; one of more than 128
bits is not taken for an integer. -/
def ofPlain? (word : String) : Option Datum :=
  match word with
  | "" | "~" | "null" | "Null" | "NULL" => some .null
  | "true" | "True" | "TRUE" => some (.bool true)
  | "false" | "False" | "FALSE" => some (.bool false)
  | _ =>
    match integer? word.toList with
    | some n =>
      if fitsBits 64 n then some (.integer n)
      else if fitsBits 128 n then none
      else some (ofWord word)
    | none => some (ofWord word)

/-- What a scalar stands for. -/
def ofScalar? (s : Scalar) : Option Datum :=
  if s.plain then ofPlain? s.text else some (.text s.text)

mutual

/-- What a node stands for, if no mapping in it names a key twice. -/
def ofNode? : Node → Option Datum
  | .scalar s => ofScalar? s
  | .sequence items => (ofItems? items).map .sequence
  | .mapping fields => (ofFields? [] fields).map .mapping

/-- What nodes stand for. -/
def ofItems? : List Node → Option (List Datum)
  | [] => some []
  | item :: items => do return (← ofNode? item) :: (← ofItems? items)

/-- What fields stand for, behind those that were read before. -/
def ofFields? (read : List (Datum × Datum)) : List (Node × Node) → Option (List (Datum × Datum))
  | [] => some read
  | (key, value) :: fields => do
    let key ← ofNode? key
    if (get? read key).isSome then none
    else ofFields? (read ++ [(key, ← ofNode? value)]) fields

end

end Datum

end Yaml

end BufferBounds
