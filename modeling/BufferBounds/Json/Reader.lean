import BufferBounds.Json.Token

/-!
# Reading JSON

The value that a list of tokens spells. The containers that are still open are kept on a stack,
the innermost first. Of two fields of one name in an object the later one counts. Containers may
be nested 127 deep.
-/

namespace BufferBounds

namespace Json

/-- A container that is still open; its parts so far are listed last first. -/
inductive Frame where
  /-- an array -/
  | array (items : List Json)
  /-- an object, between two fields -/
  | object (fields : List (String × Json))
  /-- an object, in the field of this name -/
  | field (fields : List (String × Json)) (name : String)

/-- What the reader looks for. -/
inductive Phase where
  /-- a value -/
  | value
  /-- the first item of an array, or its end -/
  | firstItem
  /-- the name of the first field of an object, or its end -/
  | firstName
  /-- the name of a further field -/
  | name
  /-- the colon behind a name -/
  | colon
  /-- a comma or the end of the container -/
  | separator
  /-- nothing: the whole value was read -/
  | done (value : Json)

/-- A reader of values. -/
structure Reader where
  /-- the open containers, the innermost first -/
  frames : List Frame
  /-- what is looked for -/
  phase : Phase

/-- How deep containers may be nested. -/
def maxDepth : Nat := 127

/-- Sets a field of an object, in place of an earlier one of the same name. -/
def setField (fields : List (String × Json)) (name : String) (value : Json) :
    List (String × Json) :=
  (name, value) :: fields.filter (·.1 != name)

namespace Reader

/-- Takes a complete value. -/
def take? (frames : List Frame) (value : Json) : Option Reader :=
  match frames with
  | [] => some ⟨[], .done value⟩
  | .array items :: frames => some ⟨.array (value :: items) :: frames, .separator⟩
  | .field fields name :: frames =>
    some ⟨.object (setField fields name value) :: frames, .separator⟩
  | .object _ :: _ => none

/-- Opens a container. -/
def enter? (frames : List Frame) (frame : Frame) (phase : Phase) : Option Reader :=
  if frames.length < maxDepth then some ⟨frame :: frames, phase⟩ else none

/-- Starts a value with a token. -/
def value? (frames : List Frame) : Token → Option Reader
  | .leaf value => take? frames value
  | .openArray => enter? frames (.array []) .firstItem
  | .openObject => enter? frames (.object []) .firstName
  | _ => none

/-- Takes the name of a field. -/
def name? (frames : List Frame) (token : Token) : Option Reader :=
  match frames, token with
  | .object fields :: frames, .leaf (.text name) => some ⟨.field fields name :: frames, .colon⟩
  | _, _ => none

/-- Closes the innermost container. -/
def close? (frames : List Frame) (token : Token) : Option Reader :=
  match frames, token with
  | .array items :: frames, .closeArray => take? frames (.array items.reverse)
  | .object fields :: frames, .closeObject => take? frames (.object fields.reverse)
  | _, _ => none

/-- Reads a token. -/
def step? (r : Reader) (token : Token) : Option Reader :=
  match r.phase, token with
  | .value, token => value? r.frames token
  | .firstItem, .closeArray => close? r.frames .closeArray
  | .firstItem, token => value? r.frames token
  | .firstName, .closeObject => close? r.frames .closeObject
  | .firstName, token => name? r.frames token
  | .name, token => name? r.frames token
  | .colon, .colon => some { r with phase := .value }
  | .separator, .comma =>
    match r.frames with
    | .array _ :: _ => some { r with phase := .value }
    | .object _ :: _ => some { r with phase := .name }
    | _ => none
  | .separator, token => close? r.frames token
  | _, _ => none

end Reader

/-- The value that a text spells. -/
def parse? (s : String) : Option Json := do
  let reader ← (← tokens? s).foldlM Reader.step? ⟨[], .value⟩
  match reader.phase with
  | .done value => some value
  | _ => none

end Json

end BufferBounds
