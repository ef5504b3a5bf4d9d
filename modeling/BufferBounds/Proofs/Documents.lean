import BufferBounds.Proofs.Overrides
import BufferBounds.Settings.Document

/-!
# What documents stand for

The settings of a document in terms of what it says. The faults of a document are told in a fixed
order: its version, its preset, overrides that are not legible, and settings that are not valid.
Overrides that are legible change the settings of the preset in exactly the fields that they name.

Settings that are written name every field, so nothing is left of the preset when they are read.
-/

namespace BufferBounds

open Yaml (Datum Node Token)

/-! ## Presets and validity -/

theorem Preset.ofText_eq_error {text : String} (h : ∀ p, ofText text ≠ .ok p) :
    ofText text = .error (.unknownPreset text) := by
  rw [ofText] at h ⊢
  split
  · rename_i preset heq
    exact absurd (by rw [heq]) (h preset)
  · rfl

namespace Settings

theorem validated_of_fault?_eq_none {s : Settings} (h : s.fault? = none) : s.validated = .ok s := by
  rw [validated, h]

theorem validated_of_fault?_eq_some {s : Settings} {error : SettingsError}
    (h : s.fault? = some error) : s.validated = .error error := by
  rw [validated, h]

theorem eq_of_validated_eq_ok {s c : Settings} (h : s.validated = .ok c) :
    s = c ∧ c.fault? = none := by
  rw [validated] at h
  split at h
  · cases h
  · rename_i hnone
    obtain rfl := Except.ok.inj h
    exact ⟨rfl, hnone⟩

/-- The settings of a preset have no fault. -/
theorem fault?_ofPreset (p : Preset) : (ofPreset p).fault? = none := by
  cases p <;> decide +kernel

end Settings

namespace Document

/-! ## Documents that are read -/

/-- The overrides of a document are left out or are something, and nothing in them is named
twice. -/
structure Proper (d : Document) : Prop where
  /-- nothing in the place of overrides leaves them out -/
  ne_null : d.overrides ≠ some .null
  /-- no mapping names a key twice -/
  distinct : ∀ overrides, d.overrides = some overrides → overrides.Distinct

/-- Nothing in the place of overrides leaves them out. -/
theorem overrides?_of_null {node : Node} (h : Datum.ofNode? node = some .null) :
    overrides? node = some none := by
  rw [overrides?, h]
  rfl

theorem ofNode?_of_overrides? {node : Node} {overrides : Datum}
    (h : overrides? node = some (some overrides)) :
    Datum.ofNode? node = some overrides ∧ overrides ≠ .null := by
  obtain ⟨d, hd, h⟩ := Option.map_eq_some_iff.mp h
  cases d with
  | null => cases h
  | _ =>
    obtain rfl := Option.some.inj h
    exact ⟨hd, nofun⟩

/-- Whatever is read is proper. -/
theorem proper_of_ofNode? {node : Node} {d : Document} (h : ofNode? node = some d) : d.Proper := by
  obtain ⟨-, -, h⟩ := Option.bind_eq_some_iff.mp h
  cases node with
  | mapping fields =>
    obtain ⟨fields, -, h⟩ := Option.bind_eq_some_iff.mp h
    obtain ⟨-, -, h⟩ := Option.bind_eq_some_iff.mp h
    obtain ⟨version, -, h⟩ := Option.bind_eq_some_iff.mp h
    obtain ⟨preset, -, h⟩ := Option.bind_eq_some_iff.mp h
    dsimp only at h
    split at h
    · obtain ⟨overrides, hoverrides, h⟩ := Option.bind_eq_some_iff.mp h
      obtain rfl := Option.some.inj h
      refine ⟨?_, ?_⟩
      · rintro rfl
        exact (ofNode?_of_overrides? hoverrides).2 rfl
      · rintro overrides' rfl
        exact Datum.distinct_of_ofNode? _ _ (ofNode?_of_overrides? hoverrides).1
    · obtain rfl := Option.some.inj h
      exact ⟨nofun, nofun⟩
  | _ => cases h

theorem proper_of_ofText? {text : String} {d : Document} (h : ofText? text = some d) :
    d.Proper := by
  obtain ⟨node, -, h⟩ := Option.bind_eq_some_iff.mp h
  exact proper_of_ofNode? h

/-! ## Overrides -/

section Overrides

variable {base c : Settings} {overrides : Datum}

theorem overridden_of_override? (h : base.override? overrides = some c) :
    overridden base (some overrides) = .ok c := by
  rw [overridden, h]

theorem overridden_of_override?_eq_none (h : base.override? overrides = none) :
    overridden base (some overrides) = .error .malformed := by
  rw [overridden, h]

end Overrides

/-! ## The order of the faults -/

section Faults

variable {d : Document} {p : Preset} {c : Settings} {overrides : Datum}
  {fields : List (String × Datum)}

theorem settings_of_version_ne (h : d.version ≠ documentVersion) :
    d.settings = .error (.unsupportedVersion d.version) := by
  rw [settings, if_neg h]

theorem settings_of_unknown (hversion : d.version = documentVersion)
    (hpreset : ∀ p, Preset.ofText d.preset ≠ .ok p) :
    d.settings = .error (.unknownPreset d.preset) := by
  rw [settings, if_pos hversion, Preset.ofText_eq_error hpreset]
  rfl

theorem settings_of_preset (hversion : d.version = documentVersion)
    (hpreset : Preset.ofText d.preset = .ok p) :
    d.settings = (overridden (.ofPreset p) d.overrides).bind Settings.validated := by
  rw [settings, if_pos hversion, hpreset]
  rfl

/-- Without overrides a document stands for its preset. -/
theorem settings_of_none (hversion : d.version = documentVersion)
    (hpreset : Preset.ofText d.preset = .ok p) (h : d.overrides = none) :
    d.settings = .ok (.ofPreset p) := by
  rw [settings_of_preset hversion hpreset, h]
  exact Settings.validated_of_fault?_eq_none (Settings.fault?_ofPreset p)

theorem settings_of_override? (hversion : d.version = documentVersion)
    (hpreset : Preset.ofText d.preset = .ok p) (h : d.overrides = some overrides)
    (hoverride : (Settings.ofPreset p).override? overrides = some c) :
    d.settings = c.validated := by
  rw [settings_of_preset hversion hpreset, h, overridden_of_override? hoverride]
  rfl

theorem settings_of_override?_eq_none (hversion : d.version = documentVersion)
    (hpreset : Preset.ofText d.preset = .ok p) (h : d.overrides = some overrides)
    (hoverride : (Settings.ofPreset p).override? overrides = none) :
    d.settings = .error .malformed := by
  rw [settings_of_preset hversion hpreset, h, overridden_of_override?_eq_none hoverride]
  rfl

/-- The settings that a document stands for are those of its preset with the fields changed that
the overrides name, and have no fault. -/
theorem settings_eq_ok_iff (hd : d.Proper) (hversion : d.version = documentVersion)
    (hpreset : Preset.ofText d.preset = .ok p)
    (h : d.overrides = some (.mapping (Datum.named fields))) :
    d.settings = .ok c ↔ (Settings.ofPreset p).Overridden fields c ∧ c.fault? = none := by
  rw [← Settings.override?_named_iff (hd.distinct _ h)]
  cases hoverride : (Settings.ofPreset p).override? (.mapping (Datum.named fields)) with
  | some s =>
    rw [settings_of_override? hversion hpreset h hoverride, Option.some_inj]
    constructor
    · exact Settings.eq_of_validated_eq_ok
    · rintro ⟨rfl, hnone⟩
      exact Settings.validated_of_fault?_eq_none hnone
  | none =>
    rw [settings_of_override?_eq_none hversion hpreset h hoverride]
    exact iff_of_false nofun nofun

/-- What is not legible is told before any fault of the settings. -/
theorem settings_eq_malformed (hd : d.Proper) (hversion : d.version = documentVersion)
    (hpreset : Preset.ofText d.preset = .ok p)
    (h : d.overrides = some (.mapping (Datum.named fields)))
    (hfields : ¬ Settings.Legible fields) : d.settings = .error .malformed := by
  refine settings_of_override?_eq_none hversion hpreset h ?_
  refine Option.eq_none_iff_forall_ne_some.mpr fun c hc => hfields ?_
  exact Settings.exists_overridden_iff.mp
    ⟨c, (Settings.override?_named_iff (hd.distinct _ h)).mp hc⟩

theorem settings_eq_fault (hd : d.Proper) (hversion : d.version = documentVersion)
    (hpreset : Preset.ofText d.preset = .ok p)
    (h : d.overrides = some (.mapping (Datum.named fields))) {error : SettingsError}
    (hc : (Settings.ofPreset p).Overridden fields c) (hfault : c.fault? = some error) :
    d.settings = .error error := by
  have hoverride := (Settings.override?_named_iff (hd.distinct _ h)).mpr hc
  rw [settings_of_override? hversion hpreset h hoverride]
  exact Settings.validated_of_fault?_eq_some hfault

end Faults

/-- **What a document stands for**, or the fault that is told of it; documents that are read are
proper by `proper_of_ofText?`. With a version that is supported and a preset that is known, the
overrides are left out, or they are no record, or they are a record. A record is legible or not, and
only if it is, what it makes of the preset is valid or not. -/
theorem settings_of_overrides {d : Document} (hd : d.Proper) :
    (d.version ≠ documentVersion → d.settings = .error (.unsupportedVersion d.version)) ∧
    (d.version = documentVersion →
      ((∀ p, Preset.ofText d.preset ≠ .ok p) → d.settings = .error (.unknownPreset d.preset)) ∧
      ∀ p, Preset.ofText d.preset = .ok p →
        (d.overrides = none → d.settings = .ok (.ofPreset p)) ∧
        (∀ overrides, d.overrides = some overrides →
          (∀ fields, overrides ≠ .mapping (Datum.named fields)) →
          d.settings = .error .malformed) ∧
        ∀ fields, d.overrides = some (.mapping (Datum.named fields)) →
          ((∃ c, (Settings.ofPreset p).Overridden fields c) ↔ Settings.Legible fields) ∧
          (¬ Settings.Legible fields → d.settings = .error .malformed) ∧
          (∀ c error, (Settings.ofPreset p).Overridden fields c → c.fault? = some error →
            d.settings = .error error) ∧
          ∀ c, d.settings = .ok c ↔ (Settings.ofPreset p).Overridden fields c ∧ c.fault? = none) ∧
    ∀ node, Datum.ofNode? node = some .null → overrides? node = some none := by
  refine ⟨settings_of_version_ne, fun hversion => ⟨settings_of_unknown hversion, ?_⟩,
    fun node => overrides?_of_null⟩
  intro p hpreset
  refine ⟨settings_of_none hversion hpreset, ?_, ?_⟩
  · intro overrides h hrecord
    have hnull : overrides ≠ .null := fun heq => hd.ne_null (heq ▸ h)
    exact settings_of_override?_eq_none hversion hpreset h
      (Settings.override?_eq_none hnull hrecord)
  · intro fields h
    exact ⟨Settings.exists_overridden_iff, settings_eq_malformed hd hversion hpreset h,
      fun c error => settings_eq_fault hd hversion hpreset h,
      fun c => settings_eq_ok_iff hd hversion hpreset h⟩

/-- A document that changes two settings of a preset and names another that there is not. -/
def eightWorkers : Document where
  version := 1
  preset := " Fast"
  overrides := some <| .mapping <| Datum.named
    [("report_in_bounds", .bool true),
      ("parallel", .mapping (Datum.named [("worker_threads", .integer 8), ("pin", .null)])),
      ("colour", .text "red")]

theorem proper_eightWorkers : eightWorkers.Proper where
  ne_null := nofun
  distinct := by
    rintro overrides ⟨⟩
    refine .mapping ?_ (by simp [Datum.same])
    simp only [Datum.named_cons, Datum.named_nil, List.forall_mem_cons]
    refine ⟨.bool true, .mapping ?_ (by simp [Datum.same]), .text "red", List.forall_mem_nil _⟩
    simp only [List.forall_mem_cons]
    exact ⟨.integer 8, .null, List.forall_mem_nil _⟩

theorem settings_of_overrides_eightWorkers :
    eightWorkers.Proper ∧
      eightWorkers.settings = .ok { Settings.ofPreset .fast with
        reportInBounds := true
        parallel := { Parallel.ofPreset .fast with workerThreads := 8 } } := by
  refine ⟨proper_eightWorkers, ?_⟩
  obtain ⟨-, hversion, -⟩ := settings_of_overrides proper_eightWorkers
  obtain ⟨-, hpreset⟩ := hversion rfl
  obtain ⟨-, -, hfields⟩ := hpreset .fast rfl
  obtain ⟨-, -, -, hok⟩ := hfields _ rfl
  have hparallel : (Parallel.ofPreset .fast).Overridden
      [("worker_threads", .integer 8), ("pin", .null)]
      { Parallel.ofPreset .fast with workerThreads := 8 } := ⟨rfl, rfl, rfl⟩
  exact (hok _).mpr ⟨⟨rfl, rfl, rfl, rfl, rfl, Or.inl ⟨_, rfl, hparallel⟩⟩, rfl⟩

/-- A document with nothing in the place of one field. -/
def blank (name : String) : Document where
  version := 1
  preset := "fast"
  overrides := some (.mapping (Datum.named [(name, .null)]))

/-- Two fields are legible with nothing in their place: the allocators are then an empty list, and
the parallel choices those of the balanced preset. -/
theorem settings_blank :
    (blank "allocators").settings = .ok { Settings.ofPreset .fast with allocators := [] } ∧
      (blank "parallel").settings =
        .ok { Settings.ofPreset .fast with parallel := .ofPreset .balanced } :=
  ⟨rfl, rfl⟩

end Document

/-! ## Settings that are written -/

namespace Yaml

deriving instance DecidableEq for Scalar, Token

/-- The token of a plain scalar. -/
def Token.word (text : String) : Token := .scalar ⟨text, true⟩

/-- The tokens of a field with a plain scalar. -/
def Token.field (name value : String) : List Token := [.key, .word name, .value, .word value]

end Yaml

namespace Settings

theorem override?_toDatum (base s : Settings) : base.override? s.toDatum = some s := by
  rw [override?, overlay_toDatum, ofDatum?_toDatum]

theorem settings_document (s : Settings) : s.document.settings = s.validated := by
  have hpreset : Preset.ofText s.document.preset = .ok .custom :=
    show Preset.ofText "custom" = _ from rfl
  exact Document.settings_of_override? rfl hpreset rfl (override?_toDatum (ofPreset .custom) s)

/-- A text that is read as a document stands for the settings of the document. -/
theorem ofYaml_of_ofText? {text : String} {d : Document} (h : Document.ofText? text = some d) :
    ofYaml text = d.settings := by
  rw [ofYaml, h]

/-- Settings that are written stand for themselves if they have no fault, and else for their fault,
if the text of their document is read as this document. Laid over any settings they replace all of
them. -/
theorem ofYaml_toYaml {s : Settings}
    (h : Document.ofText? s.document.toText = some s.document) :
    (s.fault? = none → ofYaml s.toYaml = .ok s) ∧
    (∀ error, s.fault? = some error → ofYaml s.toYaml = .error error) ∧
    ∀ base : Settings,
      base.toDatum.overlay s.toDatum = s.toDatum ∧ base.override? s.toDatum = some s := by
  have hread : ofYaml s.toYaml = s.validated := by
    rw [toYaml, ofYaml_of_ofText? h]
    exact s.settings_document
  rw [hread]
  exact ⟨validated_of_fault?_eq_none, fun error => validated_of_fault?_eq_some,
    fun base => ⟨overlay_toDatum base s, override?_toDatum base s⟩⟩

/-- Settings with names of allocators that must be quoted, and one of them twice. -/
def quoted : Settings where
  maxFixpointIterations := 7
  straddlePolicy := .reportMayOverflow
  reportInBounds := true
  branchNarrowing := false
  allocators := ["true", "a: b", "true"]
  parallel := { enabled := false, workerThreads := 3, minFunctions := 0 }

/-- The tokens of their text. -/
def quotedTokens : List Token :=
  [.blockMapping] ++ Token.field "version" "1" ++ Token.field "preset" "custom" ++
  [.key, .word "overrides", .value, .blockMapping] ++
  Token.field "max_fixpoint_iterations" "7" ++
  Token.field "straddle_policy" "report_may_overflow" ++
  Token.field "report_in_bounds" "true" ++
  Token.field "branch_narrowing" "false" ++
  [.key, .word "allocators", .value,
    .item, .scalar ⟨"true", false⟩, .item, .scalar ⟨"a: b", false⟩, .item, .scalar ⟨"true", false⟩,
    .key, .word "parallel", .value, .blockMapping] ++
  Token.field "enabled" "false" ++
  Token.field "worker_threads" "3" ++
  Token.field "min_functions" "0" ++
  [.blockEnd, .blockEnd, .blockEnd]

theorem ofText?_quoted : Document.ofText? quoted.document.toText = some quoted.document := by
  -- a single evaluation of the whole reader is too much for unfolding, so the tokens come first
  have htokens : Yaml.tokens? quoted.document.toText = some quotedTokens := by decide +kernel
  rw [Document.ofText?, Node.ofText?, htokens]
  rfl

theorem ofYaml_toYaml_quoted :
    Document.ofText? quoted.document.toText = some quoted.document ∧
      ofYaml quoted.toYaml = .ok quoted :=
  ⟨ofText?_quoted, (ofYaml_toYaml ofText?_quoted).1 rfl⟩

end Settings

end BufferBounds
