import BufferBounds.Yaml.Token

/-!
# YAML nodes

The nodes that tokens spell: scalars, sequences and mappings. A value that is left out is an empty
plain scalar. Every node and every further part of a collection takes a token, so that a reader
with twice as much fuel as there are tokens does not run out of it.
-/

namespace BufferBounds

namespace Yaml

/-- A node of a YAML document. -/
inductive Node where
  /-- a scalar -/
  | scalar (scalar : Scalar)
  /-- a sequence of nodes -/
  | sequence (items : List Node)
  /-- a mapping, with its keys in the order of the text -/
  | mapping (fields : List (Node × Node))

namespace Node

/-- The node of a value that is left out. -/
def missing : Node := .scalar .missing

/-- Where a node stands. -/
inductive Position where
  /-- in a flow collection -/
  | flow
  /-- behind a hyphen in a block -/
  | item
  /-- in a mapping in a block, where a sequence need not be indented -/
  | field

/-- Reads a node, unless it is left out: then one of these tokens is next. -/
def orMissing (ends : Token → Bool) (read : List Token → Option (Node × List Token))
    (tokens : List Token) : Option (Node × List Token) :=
  match tokens with
  | token :: _ => if ends token then some (missing, tokens) else read tokens
  | [] => none

/-- Does an item in a block end here? -/
def endsItem : Token → Bool
  | .item | .blockEnd => true
  | _ => false

/-- Does an item of a sequence that is not indented end here? -/
def endsBareItem : Token → Bool
  | .item | .key | .value | .blockEnd => true
  | _ => false

/-- Does a key or a value in a block end here? -/
def endsField : Token → Bool
  | .key | .value | .blockEnd => true
  | _ => false

/-- Does a value in a flow sequence end here? -/
def endsFlowItem : Token → Bool
  | .comma | .closeSequence => true
  | _ => false

/-- Does a value in a flow mapping end here? -/
def endsFlowValue : Token → Bool
  | .comma | .closeMapping => true
  | _ => false

/-- Does a key in a flow mapping end here? -/
def endsFlowKey : Token → Bool
  | .comma | .closeMapping | .value => true
  | _ => false

/-- The value behind a key, if there is a sign of it. -/
def valueBehind (ends : Token → Bool) (read : List Token → Option (Node × List Token)) :
    List Token → Option (Node × List Token)
  | .value :: tokens => orMissing ends read tokens
  | tokens => some (missing, tokens)

/-- The tokens behind the comma in front of a part of a flow collection. The first part has no
comma. -/
def behindComma? (first : Bool) (tokens : List Token) : Option (List Token) :=
  if first then some tokens
  else
    match tokens with
    | .comma :: tokens => some tokens
    | _ => none

mutual

/-- Reads a node. -/
def read? : Nat → Position → List Token → Option (Node × List Token)
  | 0, _, _ => none
  | n + 1, position, tokens =>
    match position, tokens with
    | _, .scalar s :: tokens => some (.scalar s, tokens)
    | _, .openSequence :: tokens => do
      let (items, tokens) ← flowItems? n true tokens
      return (.sequence items, tokens)
    | _, .openMapping :: tokens => do
      let (fields, tokens) ← flowFields? n true tokens
      return (.mapping fields, tokens)
    | .flow, _ => none
    | _, .blockSequence :: tokens => do
      let (items, tokens) ← items? n tokens
      return (.sequence items, tokens)
    | _, .blockMapping :: tokens => do
      let (fields, tokens) ← fields? n tokens
      return (.mapping fields, tokens)
    | .field, .item :: tokens => do
      let (items, tokens) ← bareItems? n (.item :: tokens)
      return (.sequence items, tokens)
    | _, _ => none

/-- Reads the items of a sequence in a block. -/
def items? : Nat → List Token → Option (List Node × List Token)
  | 0, _ => none
  | n + 1, tokens =>
    match tokens with
    | .blockEnd :: tokens => some ([], tokens)
    | .item :: tokens => do
      let (item, tokens) ← orMissing endsItem (read? n .item) tokens
      let (items, tokens) ← items? n tokens
      return (item :: items, tokens)
    | _ => none

/-- Reads the items of a sequence that is not indented. -/
def bareItems? : Nat → List Token → Option (List Node × List Token)
  | 0, _ => none
  | n + 1, tokens =>
    match tokens with
    | .item :: tokens => do
      let (item, tokens) ← orMissing endsBareItem (read? n .item) tokens
      let (items, tokens) ← bareItems? n tokens
      return (item :: items, tokens)
    | tokens => some ([], tokens)

/-- Reads the fields of a mapping in a block. -/
def fields? : Nat → List Token → Option (List (Node × Node) × List Token)
  | 0, _ => none
  | n + 1, tokens =>
    match tokens with
    | .blockEnd :: tokens => some ([], tokens)
    | .key :: tokens => do
      let (key, tokens) ← orMissing endsField (read? n .field) tokens
      let (value, tokens) ← valueBehind endsField (read? n .field) tokens
      let (fields, tokens) ← fields? n tokens
      return ((key, value) :: fields, tokens)
    | _ => none

/-- Reads the items of a flow sequence. An item with a key is a mapping of one field. A key that is
left out there takes the next token with it. -/
def flowItems? : Nat → Bool → List Token → Option (List Node × List Token)
  | 0, _, _ => none
  | n + 1, first, tokens =>
    match tokens with
    | .closeSequence :: tokens => some ([], tokens)
    | tokens => do
      match ← behindComma? first tokens with
      | .closeSequence :: tokens => some ([], tokens)
      | .key :: tokens =>
        let (key, tokens) ← match tokens with
          | .value :: tokens | .comma :: tokens | .closeSequence :: tokens =>
            some (missing, tokens)
          | tokens => read? n .flow tokens
        let (value, tokens) ← valueBehind endsFlowItem (read? n .flow) tokens
        let (items, tokens) ← flowItems? n false tokens
        return (.mapping [(key, value)] :: items, tokens)
      | tokens =>
        let (item, tokens) ← read? n .flow tokens
        let (items, tokens) ← flowItems? n false tokens
        return (item :: items, tokens)

/-- Reads the fields of a flow mapping. A node that is not announced as a key has no value. -/
def flowFields? : Nat → Bool → List Token → Option (List (Node × Node) × List Token)
  | 0, _, _ => none
  | n + 1, first, tokens =>
    match tokens with
    | .closeMapping :: tokens => some ([], tokens)
    | tokens => do
      match ← behindComma? first tokens with
      | .closeMapping :: tokens => some ([], tokens)
      | .key :: tokens =>
        let (key, tokens) ← orMissing endsFlowKey (read? n .flow) tokens
        let (value, tokens) ← valueBehind endsFlowValue (read? n .flow) tokens
        let (fields, tokens) ← flowFields? n false tokens
        return ((key, value) :: fields, tokens)
      | tokens =>
        let (key, tokens) ← read? n .flow tokens
        let (fields, tokens) ← flowFields? n false tokens
        return ((key, missing) :: fields, tokens)

end

/-! ## Documents -/

/-- Is this a boundary of documents? -/
def isBoundary : Token → Bool
  | .documentStart | .documentEnd => true
  | _ => false

/-- The node of the only document. A document may be empty if its start is marked. -/
def ofTokens? (tokens : List Token) : Option Node := do
  let read := read? (2 * tokens.length + 2) .item
  let (node, tokens) ← match tokens with
    | [.documentStart] => some (missing, [])
    | .documentStart :: tokens => orMissing isBoundary read tokens
    | tokens => read tokens
  let rest := tokens.dropWhile fun
    | .documentEnd => true
    | _ => false
  if rest.isEmpty then some node else none

/-- The node of the only document of a text. -/
def ofText? (s : String) : Option Node := do ofTokens? (← tokens? s)

mutual

/-- How deep collections are nested. -/
def depth : Node → Nat
  | .scalar _ => 0
  | .sequence items => depthOfItems items + 1
  | .mapping fields => depthOfFields fields + 1

/-- How deep collections are nested in nodes. -/
def depthOfItems : List Node → Nat
  | [] => 0
  | item :: items => max item.depth (depthOfItems items)

/-- How deep collections are nested in keys and values. -/
def depthOfFields : List (Node × Node) → Nat
  | [] => 0
  | (key, value) :: fields => max (max key.depth value.depth) (depthOfFields fields)

end

end Node

end Yaml

end BufferBounds
