import BufferBounds.Proofs.Overlays
import BufferBounds.Settings.Overrides

/-!
# Overridden settings

Which settings arise when others are laid over them. `Settings.Overridden` says it field by field
and without an overlay: a field that is named has the value that is spelled there, and any other
keeps its value. What `Settings.override?` gives are exactly these settings, and it gives none if a
field that is named spells no value of its type.
-/

namespace BufferBounds

open Yaml (Datum)

/-! ## What data spell -/

namespace Yaml.Datum

theorem bool?_eq_some_iff {d : Datum} {b : Bool} : d.bool? = some b ↔ d = .bool b := by
  cases d <;> simp [bool?]

/-- The datum of a natural number of 64 bits. -/
def number (w : UInt64) : Datum := .integer w.toNat

theorem uint64?_eq_some_iff {d : Datum} {w : UInt64} : d.uint64? = some w ↔ d = number w := by
  rw [number]
  cases d with
  | integer n =>
    cases n with
    | ofNat n =>
      rw [uint64?]
      constructor
      · intro h
        split at h
        · rename_i hlt
          rw [← Option.some.inj h, UInt64.toNat_ofNat_of_lt' hlt]
          rfl
        · cases h
      · intro h
        obtain rfl : n = w.toNat := Int.ofNat.inj (Datum.integer.inj h)
        rw [if_pos w.toNat_lt]
        simp
    | negSucc n => simp [uint64?]
  | _ => simp [uint64?]

theorem text?_eq_some_iff {d : Datum} {s : String} : d.text? = some s ↔ d = .text s := by
  cases d <;> simp [text?]

theorem mapM_text?_eq_some_iff {items : List Datum} {names : List String} :
    items.mapM text? = some names ↔ items = names.map .text := by
  induction items generalizing names with
  | nil => cases names <;> simp
  | cons d items ih =>
    rw [List.mapM_cons]
    constructor
    · intro h
      obtain ⟨name, hname, h⟩ := Option.bind_eq_some_iff.mp h
      obtain ⟨rest, hrest, h⟩ := Option.bind_eq_some_iff.mp h
      rw [← Option.some.inj h, List.map_cons, text?_eq_some_iff.mp hname, ih.mp hrest]
    · intro h
      cases names with
      | nil => cases h
      | cons name names =>
        obtain ⟨rfl, hrest⟩ := List.cons.inj h
        rw [ih.mpr hrest]
        rfl

/-- Anything is laid over a datum that is no mapping as it is. -/
theorem overlay_eq_right {base : Datum} (h : ∀ fields, base ≠ .mapping fields) (d : Datum) :
    base.overlay d = d := by
  cases d with
  | mapping patch =>
    cases base with
    | mapping fields => exact absurd rfl (h fields)
    | _ => simp [overlay]
  | _ => simp [overlay]

/-- The datum is the one that the value is written as. -/
def Is {α : Type} (write : α → Datum) (x : α) (d : Datum) : Prop := d = write x

/-- The value is what the field of this name spells, or the old one if no field has the name. -/
def Takes {α : Type} (Spells : α → Datum → Prop) (fields : List (String × Datum)) (name : String)
    (old new : α) : Prop :=
  match fields.lookup name with
  | some d => Spells new d
  | none => new = old

/-- The field of this name, if there is one, spells a value. -/
def Legible {α : Type} (Spells : α → Datum → Prop) (fields : List (String × Datum))
    (name : String) : Prop :=
  ∀ d, fields.lookup name = some d → ∃ x, Spells x d

section Takes

variable {α : Type} {Spells : α → Datum → Prop} {write : α → Datum} {read : Datum → Option α}
  {fields r : List (String × Datum)} {name : String} {base : Datum} {standard old new : α}

/-- A field that is read after an overlay takes the value that the patch spells. -/
theorem fieldOr_iff_takes
    (hlookup : r.lookup name = Table.joinEntry overlay (some base) (fields.lookup name))
    (hbase : read base = some old)
    (hread : ∀ d, fields.lookup name = some d →
      (read (base.overlay d) = some new ↔ Spells new d)) :
    fieldOr r name read standard = some new ↔ Takes Spells fields name old new := by
  rw [fieldOr, hlookup, Takes]
  cases h : fields.lookup name with
  | some d => exact hread d h
  | none =>
    rw [Table.joinEntry_none_right]
    change read base = some new ↔ new = old
    rw [hbase, Option.some_inj, eq_comm]

/-- So does a field that is no mapping, as the datum of the patch replaces the old one. -/
theorem fieldOr_iff_takes_is (hwrite : ∀ x fields, write x ≠ .mapping fields)
    (hread : ∀ d x, read d = some x ↔ d = write x)
    (hlookup : r.lookup name = Table.joinEntry overlay (some (write old)) (fields.lookup name)) :
    fieldOr r name read standard = some new ↔ Takes (Is write) fields name old new := by
  refine fieldOr_iff_takes hlookup ((hread _ _).mpr rfl) fun d _ => ?_
  rw [overlay_eq_right (hwrite old)]
  exact hread d new

/-- There is a value to take if the field spells one. -/
theorem exists_takes_iff :
    (∃ new, Takes Spells fields name old new) ↔ Legible Spells fields name := by
  simp only [Takes, Legible]
  cases fields.lookup name with
  | some d => simp
  | none => simp

end Takes

end Yaml.Datum

theorem StraddlePolicy.ofName?_eq_some_iff {name : String} {policy : StraddlePolicy} :
    ofName? name = some policy ↔ name = policy.name := by
  rw [ofName?.eq_def]
  split <;> cases policy <;> simp_all [StraddlePolicy.name]

/-! ## Parallel choices -/

namespace Parallel

/-- The choices `p` are those of `base` with the fields that are named changed. -/
structure Overridden (base : Parallel) (fields : List (String × Datum)) (p : Parallel) : Prop where
  /-- a truth value -/
  enabled : Datum.Takes (Datum.Is .bool) fields "enabled" base.enabled p.enabled
  /-- a natural number of 64 bits -/
  workerThreads :
    Datum.Takes (Datum.Is .number) fields "worker_threads" base.workerThreads p.workerThreads
  /-- a natural number of 64 bits -/
  minFunctions :
    Datum.Takes (Datum.Is .number) fields "min_functions" base.minFunctions p.minFunctions

/-- A mapping spells the choices with those changed that it names. Nothing in its place spells the
choices of the balanced preset. -/
def Spells (base p : Parallel) (d : Datum) : Prop :=
  (∃ fields, d = .mapping (Datum.named fields) ∧ base.Overridden fields p) ∨
    d = .null ∧ p = .ofPreset .balanced

/-- Every field that is named spells a value of its type. -/
structure Legible (fields : List (String × Datum)) : Prop where
  /-- a truth value -/
  enabled : Datum.Legible (Datum.Is .bool) fields "enabled"
  /-- a natural number of 64 bits -/
  workerThreads : Datum.Legible (Datum.Is .number) fields "worker_threads"
  /-- a natural number of 64 bits -/
  minFunctions : Datum.Legible (Datum.Is .number) fields "min_functions"

theorem exists_overridden_iff {base : Parallel} {fields : List (String × Datum)} :
    (∃ p, base.Overridden fields p) ↔ Legible fields := by
  constructor
  · rintro ⟨p, h⟩
    exact ⟨Datum.exists_takes_iff.mp ⟨_, h.enabled⟩, Datum.exists_takes_iff.mp ⟨_, h.workerThreads⟩,
      Datum.exists_takes_iff.mp ⟨_, h.minFunctions⟩⟩
  · intro h
    obtain ⟨enabled, henabled⟩ := Datum.exists_takes_iff.mpr h.enabled
    obtain ⟨workerThreads, hworkers⟩ := Datum.exists_takes_iff.mpr h.workerThreads
    obtain ⟨minFunctions, hmin⟩ := Datum.exists_takes_iff.mpr h.minFunctions
    exact ⟨⟨enabled, workerThreads, minFunctions⟩, henabled, hworkers, hmin⟩

theorem exists_spells_iff {base : Parallel} {d : Datum} :
    (∃ p, base.Spells p d) ↔
      (∃ fields, d = .mapping (Datum.named fields) ∧ Legible fields) ∨ d = .null := by
  constructor
  · rintro ⟨p, ⟨fields, hd, h⟩ | ⟨hd, -⟩⟩
    · exact Or.inl ⟨fields, hd, exists_overridden_iff.mp ⟨p, h⟩⟩
    · exact Or.inr hd
  · rintro (⟨fields, hd, h⟩ | hd)
    · obtain ⟨p, h⟩ := exists_overridden_iff.mpr h
      exact ⟨p, Or.inl ⟨fields, hd, h⟩⟩
    · exact ⟨_, Or.inr ⟨hd, rfl⟩⟩

/-- The fields of the choices. -/
def fields (p : Parallel) : List (String × Datum) :=
  [("enabled", .bool p.enabled), ("worker_threads", .integer p.workerThreads.toNat),
    ("min_functions", .integer p.minFunctions.toNat)]

theorem toDatum_eq (p : Parallel) : p.toDatum = .mapping (Datum.named p.fields) := rfl

theorem ofDatum?_eq_some_iff {d : Datum} {r : List (String × Datum)} (h : d.record? = some r)
    {p : Parallel} :
    ofDatum? d = some p ↔
      Datum.fieldOr r "enabled" Datum.bool? (ofPreset .balanced).enabled = some p.enabled ∧
      Datum.fieldOr r "worker_threads" Datum.uint64? (ofPreset .balanced).workerThreads =
        some p.workerThreads ∧
      Datum.fieldOr r "min_functions" Datum.uint64? (ofPreset .balanced).minFunctions =
        some p.minFunctions := by
  simp only [ofDatum?, h, Option.bind_eq_bind, Option.bind_some]
  constructor
  · intro h
    obtain ⟨enabled, henabled, h⟩ := Option.bind_eq_some_iff.mp h
    obtain ⟨workerThreads, hworkers, h⟩ := Option.bind_eq_some_iff.mp h
    obtain ⟨minFunctions, hmin, h⟩ := Option.bind_eq_some_iff.mp h
    obtain rfl := Option.some.inj h
    exact ⟨henabled, hworkers, hmin⟩
  · rintro ⟨henabled, hworkers, hmin⟩
    simp only [Option.bind_some, henabled, hworkers, hmin]
    rfl

/-- Fields laid over the choices change those that they name. -/
theorem ofDatum?_overlay_named_iff {base p : Parallel} {fields : List (String × Datum)}
    (h : Datum.Distinct (.mapping (Datum.named fields))) :
    ofDatum? (base.toDatum.overlay (.mapping (Datum.named fields))) = some p ↔
      base.Overridden fields p := by
  obtain ⟨r, hr, hlookup⟩ := Datum.exists_record?_overlay h base.fields
  rw [toDatum_eq, ofDatum?_eq_some_iff hr,
    Datum.fieldOr_iff_takes_is (by simp) (fun _ _ => Datum.bool?_eq_some_iff) (hlookup "enabled"),
    Datum.fieldOr_iff_takes_is (by simp [Datum.number]) (fun _ _ => Datum.uint64?_eq_some_iff)
      (hlookup "worker_threads"),
    Datum.fieldOr_iff_takes_is (by simp [Datum.number]) (fun _ _ => Datum.uint64?_eq_some_iff)
      (hlookup "min_functions")]
  constructor
  · rintro ⟨henabled, hworkers, hmin⟩
    exact ⟨henabled, hworkers, hmin⟩
  · intro h
    exact ⟨h.enabled, h.workerThreads, h.minFunctions⟩

/-- Choices that are written are read back. -/
theorem ofDatum?_toDatum (p : Parallel) : ofDatum? p.toDatum = some p := by
  have hempty : Datum.Distinct (.mapping (Datum.named [])) := .mapping (by simp) .nil
  exact (ofDatum?_overlay_named_iff hempty).mpr ⟨rfl, rfl, rfl⟩

/-- Data laid over the choices are read as the choices that they spell. -/
theorem ofDatum?_overlay_iff {base p : Parallel} {d : Datum} (hd : d.Distinct) :
    ofDatum? (base.toDatum.overlay d) = some p ↔ base.Spells p d := by
  cases d with
  | mapping inner =>
    by_cases hinner : ∃ fields, inner = Datum.named fields
    · obtain ⟨fields, rfl⟩ := hinner
      rw [ofDatum?_overlay_named_iff hd]
      constructor
      · intro h
        exact Or.inl ⟨fields, rfl, h⟩
      · rintro (⟨fields', heq, h⟩ | ⟨heq, -⟩)
        · rw [Datum.named_injective (Datum.mapping.inj heq)]
          exact h
        · cases heq
    · have hnone := Datum.record?_overlay_eq_none (fun p hp => hinner ⟨p, hp⟩) base.fields
      rw [toDatum_eq, ofDatum?, hnone]
      refine iff_of_false nofun ?_
      rintro (⟨fields, heq, -⟩ | ⟨heq, -⟩)
      · exact hinner ⟨fields, Datum.mapping.inj heq⟩
      · cases heq
  | null =>
    have hread : ofDatum? (base.toDatum.overlay .null) = some (ofPreset .balanced) := rfl
    rw [hread, Option.some_inj, Spells]
    simp [eq_comm]
  | _ =>
    -- no other datum is a record
    refine iff_of_false nofun ?_
    rintro (⟨fields, heq, -⟩ | ⟨heq, -⟩) <;> cases heq

end Parallel

/-! ## Settings -/

namespace Settings

/-- A list of texts spells names. Nothing in its place spells no names. -/
def SpellsNames (names : List String) (d : Datum) : Prop :=
  d = .sequence (names.map .text) ∨ d = .null ∧ names = []

/-- The settings `c` are those of `base` with the fields that are named changed. Fields of other
names do not matter. -/
structure Overridden (base : Settings) (fields : List (String × Datum)) (c : Settings) : Prop where
  /-- a natural number of 64 bits -/
  maxFixpointIterations :
    Datum.Takes (Datum.Is .number) fields "max_fixpoint_iterations" base.maxFixpointIterations
      c.maxFixpointIterations
  /-- the name of a policy -/
  straddlePolicy :
    Datum.Takes (Datum.Is fun policy => .text policy.name) fields "straddle_policy"
      base.straddlePolicy c.straddlePolicy
  /-- a truth value -/
  reportInBounds :
    Datum.Takes (Datum.Is .bool) fields "report_in_bounds" base.reportInBounds c.reportInBounds
  /-- a truth value -/
  branchNarrowing :
    Datum.Takes (Datum.Is .bool) fields "branch_narrowing" base.branchNarrowing c.branchNarrowing
  /-- a list of texts, which replaces the old one as a whole -/
  allocators : Datum.Takes SpellsNames fields "allocators" base.allocators c.allocators
  /-- a mapping, and what it does not name keeps its value -/
  parallel : Datum.Takes base.parallel.Spells fields "parallel" base.parallel c.parallel

/-- Every field that is named spells a value of its type. -/
structure Legible (fields : List (String × Datum)) : Prop where
  /-- a natural number of 64 bits -/
  maxFixpointIterations : Datum.Legible (Datum.Is .number) fields "max_fixpoint_iterations"
  /-- the name of a policy -/
  straddlePolicy :
    Datum.Legible (Datum.Is fun policy : StraddlePolicy => .text policy.name) fields
      "straddle_policy"
  /-- a truth value -/
  reportInBounds : Datum.Legible (Datum.Is .bool) fields "report_in_bounds"
  /-- a truth value -/
  branchNarrowing : Datum.Legible (Datum.Is .bool) fields "branch_narrowing"
  /-- a list of texts, or nothing -/
  allocators : Datum.Legible SpellsNames fields "allocators"
  /-- a mapping in which this holds of every field again, or nothing -/
  parallel : ∀ d, fields.lookup "parallel" = some d →
    (∃ inner, d = .mapping (Datum.named inner) ∧ Parallel.Legible inner) ∨ d = .null

/-- There are settings that differ from others in the fields that are named if these are legible. -/
theorem exists_overridden_iff {base : Settings} {fields : List (String × Datum)} :
    (∃ c, base.Overridden fields c) ↔ Legible fields := by
  constructor
  · rintro ⟨c, h⟩
    exact {
      maxFixpointIterations := Datum.exists_takes_iff.mp ⟨_, h.maxFixpointIterations⟩
      straddlePolicy := Datum.exists_takes_iff.mp ⟨_, h.straddlePolicy⟩
      reportInBounds := Datum.exists_takes_iff.mp ⟨_, h.reportInBounds⟩
      branchNarrowing := Datum.exists_takes_iff.mp ⟨_, h.branchNarrowing⟩
      allocators := Datum.exists_takes_iff.mp ⟨_, h.allocators⟩
      parallel := fun d hd =>
        Parallel.exists_spells_iff.mp (Datum.exists_takes_iff.mp ⟨_, h.parallel⟩ d hd) }
  · intro h
    obtain ⟨iterations, hiterations⟩ := Datum.exists_takes_iff.mpr h.maxFixpointIterations
    obtain ⟨policy, hpolicy⟩ := Datum.exists_takes_iff.mpr h.straddlePolicy
    obtain ⟨inBounds, hinBounds⟩ := Datum.exists_takes_iff.mpr h.reportInBounds
    obtain ⟨narrowing, hnarrowing⟩ := Datum.exists_takes_iff.mpr h.branchNarrowing
    obtain ⟨allocators, hallocators⟩ := Datum.exists_takes_iff.mpr h.allocators
    obtain ⟨parallel, hparallel⟩ :=
      Datum.exists_takes_iff.mpr fun d hd => Parallel.exists_spells_iff.mpr (h.parallel d hd)
    exact ⟨⟨iterations, policy, inBounds, narrowing, allocators, parallel⟩, hiterations, hpolicy,
      hinBounds, hnarrowing, hallocators, hparallel⟩

/-- The fields of the settings. -/
def fields (s : Settings) : List (String × Datum) :=
  [("max_fixpoint_iterations", .number s.maxFixpointIterations),
    ("straddle_policy", .text s.straddlePolicy.name), ("report_in_bounds", .bool s.reportInBounds),
    ("branch_narrowing", .bool s.branchNarrowing),
    ("allocators", .sequence (s.allocators.map .text)), ("parallel", s.parallel.toDatum)]

theorem toDatum_eq (s : Settings) : s.toDatum = .mapping (Datum.named s.fields) := rfl

/-- Reads a policy. -/
def policy? (d : Datum) : Option StraddlePolicy := d.text?.bind StraddlePolicy.ofName?

/-- Reads the names of allocators. -/
def names? (d : Datum) : Option (List String) := d.items?.bind (·.mapM Datum.text?)

theorem policy?_eq_some_iff {d : Datum} {policy : StraddlePolicy} :
    policy? d = some policy ↔ d = .text policy.name := by
  rw [policy?, Option.bind_eq_some_iff]
  simp only [Datum.text?_eq_some_iff, StraddlePolicy.ofName?_eq_some_iff]
  exact exists_eq_right

theorem names?_eq_some_iff {d : Datum} {names : List String} :
    names? d = some names ↔ SpellsNames names d := by
  rw [SpellsNames]
  cases d with
  | sequence items =>
    rw [names?, Datum.items?, Option.bind_some, Datum.mapM_text?_eq_some_iff]
    simp
  | null => cases names <;> simp [names?, Datum.items?]
  | _ => simp [names?, Datum.items?]

theorem names?_overlay_iff {old names : List String} {d : Datum} :
    names? ((Datum.sequence (old.map .text)).overlay d) = some names ↔ SpellsNames names d := by
  rw [Datum.overlay_eq_right (by simp), names?_eq_some_iff]

theorem ofDatum?_eq_some_iff {d : Datum} {r : List (String × Datum)} (h : d.record? = some r)
    {c : Settings} :
    ofDatum? d = some c ↔
      Datum.fieldOr r "max_fixpoint_iterations" Datum.uint64?
        (ofPreset .balanced).maxFixpointIterations = some c.maxFixpointIterations ∧
      Datum.fieldOr r "straddle_policy" policy? (ofPreset .balanced).straddlePolicy =
        some c.straddlePolicy ∧
      Datum.fieldOr r "report_in_bounds" Datum.bool? (ofPreset .balanced).reportInBounds =
        some c.reportInBounds ∧
      Datum.fieldOr r "branch_narrowing" Datum.bool? (ofPreset .balanced).branchNarrowing =
        some c.branchNarrowing ∧
      Datum.fieldOr r "allocators" names? (ofPreset .balanced).allocators = some c.allocators ∧
      Datum.fieldOr r "parallel" Parallel.ofDatum? (ofPreset .balanced).parallel =
        some c.parallel := by
  simp only [ofDatum?, h, Option.bind_eq_bind, Option.bind_some]
  constructor
  · intro h
    obtain ⟨iterations, hiterations, h⟩ := Option.bind_eq_some_iff.mp h
    obtain ⟨policy, hpolicy, h⟩ := Option.bind_eq_some_iff.mp h
    obtain ⟨inBounds, hinBounds, h⟩ := Option.bind_eq_some_iff.mp h
    obtain ⟨narrowing, hnarrowing, h⟩ := Option.bind_eq_some_iff.mp h
    obtain ⟨allocators, hallocators, h⟩ := Option.bind_eq_some_iff.mp h
    obtain ⟨parallel, hparallel, h⟩ := Option.bind_eq_some_iff.mp h
    obtain rfl := Option.some.inj h
    exact ⟨hiterations, hpolicy, hinBounds, hnarrowing, hallocators, hparallel⟩
  · rintro ⟨hiterations, hpolicy, hinBounds, hnarrowing, hallocators, hparallel⟩
    refine Option.bind_eq_some_iff.mpr ⟨_, hiterations, ?_⟩
    refine Option.bind_eq_some_iff.mpr ⟨_, hpolicy, ?_⟩
    refine Option.bind_eq_some_iff.mpr ⟨_, hinBounds, ?_⟩
    refine Option.bind_eq_some_iff.mpr ⟨_, hnarrowing, ?_⟩
    refine Option.bind_eq_some_iff.mpr ⟨_, hallocators, ?_⟩
    exact Option.bind_eq_some_iff.mpr ⟨_, hparallel, rfl⟩

/-- Overrides that are a record change exactly the fields that they name, if each spells a value of
its type. -/
theorem override?_named_iff {base c : Settings} {fields : List (String × Datum)}
    (h : Datum.Distinct (.mapping (Datum.named fields))) :
    base.override? (.mapping (Datum.named fields)) = some c ↔ base.Overridden fields c := by
  obtain ⟨r, hr, hlookup⟩ := Datum.exists_record?_overlay h base.fields
  rw [override?, toDatum_eq, ofDatum?_eq_some_iff hr,
    Datum.fieldOr_iff_takes_is (by simp [Datum.number]) (fun _ _ => Datum.uint64?_eq_some_iff)
      (hlookup "max_fixpoint_iterations"),
    Datum.fieldOr_iff_takes_is (by simp) (fun _ _ => policy?_eq_some_iff)
      (hlookup "straddle_policy"),
    Datum.fieldOr_iff_takes_is (by simp) (fun _ _ => Datum.bool?_eq_some_iff)
      (hlookup "report_in_bounds"),
    Datum.fieldOr_iff_takes_is (by simp) (fun _ _ => Datum.bool?_eq_some_iff)
      (hlookup "branch_narrowing"),
    Datum.fieldOr_iff_takes (hlookup "allocators") (names?_eq_some_iff.mpr (Or.inl rfl))
      (fun _ _ => names?_overlay_iff),
    Datum.fieldOr_iff_takes (hlookup "parallel") base.parallel.ofDatum?_toDatum
      (fun _ hd => Parallel.ofDatum?_overlay_iff (h.of_lookup hd))]
  constructor
  · rintro ⟨hiterations, hpolicy, hinBounds, hnarrowing, hallocators, hparallel⟩
    exact ⟨hiterations, hpolicy, hinBounds, hnarrowing, hallocators, hparallel⟩
  · intro h
    exact ⟨h.maxFixpointIterations, h.straddlePolicy, h.reportInBounds, h.branchNarrowing,
      h.allocators, h.parallel⟩

/-- Overrides that are no record are refused. -/
theorem override?_eq_none {base : Settings} {d : Datum} (hnull : d ≠ .null)
    (hrecord : ∀ fields, d ≠ .mapping (Datum.named fields)) : base.override? d = none := by
  cases d with
  | null => exact absurd rfl hnull
  | mapping patch =>
    have hpatch (p : List (String × Datum)) (hp : patch = Datum.named p) : False :=
      hrecord p (congrArg Datum.mapping hp)
    rw [override?, toDatum_eq, ofDatum?, Datum.record?_overlay_eq_none hpatch base.fields]
    rfl
  | _ => rfl

/-- Settings that are written are read back. -/
theorem ofDatum?_toDatum (s : Settings) : ofDatum? s.toDatum = some s := by
  have hempty : Datum.Distinct (.mapping (Datum.named [])) := .mapping (by simp) .nil
  exact (override?_named_iff hempty).mpr ⟨rfl, rfl, rfl, rfl, rfl, rfl⟩

/-- Nothing is left of settings under others that name every field. -/
theorem overlay_toDatum (base s : Settings) : base.toDatum.overlay s.toDatum = s.toDatum := rfl

end Settings

end BufferBounds
