import DataRace.Settings.Basic
import DataRace.Yaml.Overlay
import DataRace.Yaml.Printer
import DataRace.Yaml.Reader

/-!
# Settings as documents

Settings are kept in YAML mappings.  A document names its version, may name a preset, and overrides
single fields of it; every other key is refused.

`Settings.ofMapping` and `Settings.toMapping` are the two directions on mappings, `Settings.parse`
and `Settings.render` those on texts.
-/

namespace DataRace

namespace Settings

/-! ### Writing -/

/-- Settings as the fields of a document, without its version. -/
def fields (s : Settings) : List (String × Yaml.Outline) :=
  [ ("entry", .text s.entry),
    ("runtime", .text s.runtime.name),
    ("dedup_calls", .bool s.dedupCalls),
    ("max_threads", .nat s.maxThreads),
    ("parallel", .bool s.isParallel),
    ("openmp", .group [("team_size", .nat s.teamSize)]),
    ("cuda", .group [("blocks", .nat s.blocks), ("threads_per_block", .nat s.threadsPerBlock)]) ]

/-- The document of settings. -/
def document (s : Settings) : List (String × Yaml.Outline) :=
  ("version", .nat supportedVersion) :: s.fields

/-- The mapping that the document of settings is. -/
def toMapping (s : Settings) : List (Yaml × Yaml) :=
  Yaml.Outline.toYaml.entriesToYaml s.document

/-- The text of the document of settings. -/
def render (s : Settings) : String := Yaml.Outline.render s.document

/-! ### Reading -/

/-- The value that was read, or a malformed document. -/
def orMalformed {α : Type} : Option α → Except SettingsError α
  | some a => .ok a
  | none => .error .malformed

/-- The entries of a mapping by their names, each of which must be known and come only once.  Null
is an empty mapping. -/
def named? (known : List String) (v : Yaml) : Option (List (String × Yaml)) := do
  let entries ← (← v.entries?).mapM fun (key, value) => (key.str?).map (·, value)
  let names := entries.map (·.1)
  if names.all (· ∈ known) && names.Nodup then some entries else none

/-- The field of a name, or a default where it is missing. -/
def field? {α : Type} (name : String) (read? : Yaml → Option α) (default : α)
    (entries : List (String × Yaml)) : Option α :=
  match entries.lookup name with
  | some v => read? v
  | none => some default

/-- The runtime that a value names: a text, or a tag on null. -/
def runtime? : Yaml → Option RuntimeSelection
  | .str name => RuntimeSelection.ofName? name
  | .tagged name .null => RuntimeSelection.ofName? name
  | _ => none

/-- A number of 32 bits. -/
def size? : Yaml → Option Nat := Yaml.natBelow? (Nat.pow 2 32)

/-- The settings that a mapping of all fields holds.  A group that leaves out a field has its
default. -/
def ofFields? (v : Yaml) : Option Settings := do
  let top ← named?
    ["entry", "runtime", "dedup_calls", "max_threads", "parallel", "openmp", "cuda"] v
  let openmp ← named? ["team_size"] ((top.lookup "openmp").getD .null)
  let cuda ← named? ["blocks", "threads_per_block"] ((top.lookup "cuda").getD .null)
  some
    { entry := ← field? "entry" Yaml.str? default.entry top
      runtime := ← field? "runtime" runtime? default.runtime top
      dedupCalls := ← field? "dedup_calls" Yaml.bool? default.dedupCalls top
      maxThreads := ← field? "max_threads" (Yaml.natBelow? (Nat.pow 2 64)) default.maxThreads top
      isParallel := ← field? "parallel" Yaml.bool? default.isParallel top
      teamSize := ← field? "team_size" size? default.teamSize openmp
      blocks := ← field? "blocks" size? default.blocks cuda
      threadsPerBlock := ← field? "threads_per_block" size? default.threadsPerBlock cuda }

/-- The version that a document names. -/
def readVersion (entries : List (Yaml × Yaml)) : Except SettingsError Nat :=
  match Yaml.lookup "version" entries with
  | none => .error .missingVersion
  | some v => orMalformed (v.natBelow? (Nat.pow 2 64))

/-- The preset that a document names, or the everyday one. -/
def readPreset (entries : List (Yaml × Yaml)) : Except SettingsError Preset :=
  match Yaml.lookup "preset" entries with
  | none => .ok .balanced
  | some v => do Preset.ofName (← orMalformed v.str?)

/-- The settings of a document: its preset with its other fields laid over it. -/
def ofMapping (entries : List (Yaml × Yaml)) : Except SettingsError Settings := do
  let version ← readVersion entries
  if version ≠ supportedVersion then throw (.unsupportedVersion version)
  let preset ← readPreset entries
  let base := (Yaml.Outline.group (Settings.preset preset).fields).toYaml
  let patch := Yaml.remove "preset" (Yaml.remove "version" entries)
  let settings ← orMalformed (ofFields? (base.overlay (.map patch)))
  settings.validate
  return settings

/-- The settings of the document that a text holds. -/
def parse (text : String) : Except SettingsError Settings := do
  ofMapping (← orMalformed (Yaml.readMapping? text))

end Settings

end DataRace
