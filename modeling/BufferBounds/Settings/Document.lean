import BufferBounds.Settings.Overrides
import BufferBounds.Yaml.Writer

/-!
# Settings documents

Settings as a document that the user can keep: a version, the name of a preset, and the settings
that differ from it. A document is written with the preset `custom` and all settings after it.

A document that cannot be read is malformed. Of a document that can, the version is looked at
first, then the preset, then the overrides; only then it is asked whether the settings are valid.
-/

namespace BufferBounds

open Yaml (Datum Node)

/-- A settings document. -/
structure Document where
  /-- the version of its form -/
  version : UInt32
  /-- the text that names the preset -/
  preset : String
  /-- the settings that differ from the preset, by their names -/
  overrides : Option Datum

namespace Document

/-! ## Reading -/

/-- How deep collections may be nested. -/
def maxDepth : Nat := 128

/-- The fields of a document. -/
def fieldNames : List String := ["version", "preset", "overrides"]

/-- The version: a plain natural number of 32 bits. -/
def version? : Node → Option UInt32
  | .scalar s => do
    guard s.plain
    let n ← Yaml.unsigned? s.text.toList
    if n < UInt32.size then some (.ofNat n) else none
  | _ => none

/-- The text of a scalar, whatever it would stand for. -/
def text? : Node → Option String
  | .scalar s => some s.text
  | _ => none

/-- The overrides; nothing in their place leaves the preset as it is. -/
def overrides? (node : Node) : Option (Option Datum) :=
  (Datum.ofNode? node).map fun
    | .null => none
    | overrides => some overrides

/-- The document that a node spells: a mapping with the version, the preset, and perhaps the
overrides, each once. -/
def ofNode? (node : Node) : Option Document := do
  guard (node.depth ≤ maxDepth)
  let .mapping fields := node | none
  let fields ← fields.mapM fun (key, value) => (text? key).map (·, value)
  let names := fields.map (·.1)
  guard (names.all fieldNames.contains && decide names.Nodup)
  return {
    version := ← (fields.lookup "version").bind version?
    preset := ← (fields.lookup "preset").bind text?
    overrides := ← match fields.lookup "overrides" with
      | some node => overrides? node
      | none => some none }

/-- The document that a text spells. -/
def ofText? (s : String) : Option Document := (Node.ofText? s).bind ofNode?

/-! ## Writing -/

/-- The document as data. Overrides that are left out are not written. -/
def toDatum (d : Document) : Datum :=
  let overrides := match d.overrides with
    | some overrides => [(.text "overrides", overrides)]
    | none => []
  .mapping ((.text "version", .integer d.version.toNat) :: (.text "preset", .text d.preset) ::
    overrides)

/-- The text of the document. -/
def toText (d : Document) : String := d.toDatum.toText

/-! ## Settings -/

/-- Settings with overrides, if there are any. -/
def overridden (s : Settings) : Option Datum → Except SettingsError Settings
  | none => .ok s
  | some overrides =>
    match s.override? overrides with
    | some s => .ok s
    | none => .error .malformed

/-- The settings that a document stands for. -/
def settings (d : Document) : Except SettingsError Settings :=
  if d.version = documentVersion then do
    let preset ← Preset.ofText d.preset
    let settings ← overridden (.ofPreset preset) d.overrides
    settings.validated
  else .error (.unsupportedVersion d.version)

end Document

namespace Settings

/-- The document of settings, with all of them as overrides. -/
def document (s : Settings) : Document :=
  ⟨documentVersion, Preset.custom.toString, some s.toDatum⟩

/-- The settings that a text stands for. -/
def ofYaml (text : String) : Except SettingsError Settings :=
  match Document.ofText? text with
  | some document => document.settings
  | none => .error .malformed

/-- The text of the document of settings. -/
def toYaml (s : Settings) : String := s.document.toText

end Settings

end BufferBounds
