/-!
# Settings

The settings of an analysis: its entry, the runtime that is modelled, and the sizes of what is
modelled.  `Settings.preset` gives complete settings by name, `Settings.validate` checks that every
size is in its range.
-/

namespace DataRace

/-- The runtime that a program uses, or that it is to be found out. -/
inductive RuntimeSelection where
  | auto
  | pthread
  | openMp
  | cuda
  deriving DecidableEq, Repr, Inhabited

namespace RuntimeSelection

/-- The name of a selection. -/
def name : RuntimeSelection → String
  | .auto => "auto"
  | .pthread => "pthread"
  | .openMp => "openmp"
  | .cuda => "cuda"

/-- The selection of a name. -/
def ofName? : String → Option RuntimeSelection
  | "auto" => some .auto
  | "pthread" => some .pthread
  | "openmp" => some .openMp
  | "cuda" => some .cuda
  | _ => none

end RuntimeSelection

/-- Settings by name: quick, everyday, and thorough. -/
inductive Preset where
  | fast
  | balanced
  | thorough
  deriving DecidableEq, Repr, Inhabited

/-- Why settings are refused. -/
inductive SettingsError where
  | outOfRange (field : String) (value low high : Nat) (hint : String)
  | missingVersion
  | unsupportedVersion (found : Nat)
  | unknownPreset (name : String)
  /-- The document is no YAML, or a value in it has the wrong type. -/
  | malformed
  deriving DecidableEq, Repr

/-- The version of the documents that are read and written. -/
def supportedVersion : Nat := 1

/-- The wording of an error, where it has a fixed one. -/
def SettingsError.message? : SettingsError → Option String
  | .outOfRange field value low high hint =>
    some ("Invalid range for field '" ++ field ++ "': " ++ toString value ++ " not in "
      ++ toString low ++ "..=" ++ toString high ++ ". " ++ hint)
  | .missingVersion =>
    some ("Missing 'version' field in configuration file. "
      ++ "Add 'version: 1' to the top of your YAML file.")
  | .unsupportedVersion found =>
    some ("Unsupported configuration version " ++ toString found ++ ". Supported versions: "
      ++ toString supportedVersion)
  | .unknownPreset name =>
    some ("Unknown preset '" ++ name ++ "'. Valid presets: fast, balanced, thorough")
  | .malformed => none

namespace Preset

/-- The name of a preset. -/
def name : Preset → String
  | .fast => "fast"
  | .balanced => "balanced"
  | .thorough => "thorough"

/-- The preset of a name in any letter case.  No other character turns into a letter of these
names in lower case than the Latin capitals. -/
def ofName (name : String) : Except SettingsError Preset :=
  match String.ofList (name.toList.map Char.toLower) with
  | "fast" => .ok .fast
  | "balanced" => .ok .balanced
  | "thorough" => .ok .thorough
  | _ => .error (.unknownPreset name)

end Preset

/-- The settings of an analysis. -/
structure Settings where
  /-- The routine of the main thread. -/
  entry : String
  runtime : RuntimeSelection
  /-- Whether a call is expanded only once where a second expansion adds nothing. -/
  dedupCalls : Bool
  /-- No more threads than these are traced. -/
  maxThreads : Nat
  /-- Whether work may be spread over processors, which never changes an answer. -/
  isParallel : Bool
  /-- The members of an OpenMP team. -/
  teamSize : Nat
  /-- The blocks of a kernel launch. -/
  blocks : Nat
  /-- The device threads of a block. -/
  threadsPerBlock : Nat
  deriving DecidableEq, Repr, Inhabited

namespace Settings

/-- The settings of a preset. -/
def preset : Preset → Settings
  | .fast =>
    { entry := "main", runtime := .auto, dedupCalls := true, maxThreads := 256,
      isParallel := true, teamSize := 2, blocks := 1, threadsPerBlock := 2 }
  | .balanced =>
    { entry := "main", runtime := .auto, dedupCalls := true, maxThreads := 1024,
      isParallel := true, teamSize := 2, blocks := 2, threadsPerBlock := 2 }
  | .thorough =>
    { entry := "main", runtime := .auto, dedupCalls := false, maxThreads := 100000,
      isParallel := true, teamSize := 4, blocks := 2, threadsPerBlock := 4 }

/-- The settings used when none are given. -/
def default : Settings := preset .balanced

/-- Fails unless a value is between two bounds. -/
def inRange (field : String) (value low high : Nat) (hint : String) :
    Except SettingsError Unit :=
  if low ≤ value ∧ value ≤ high then .ok () else .error (.outOfRange field value low high hint)

/-- Fails at the first size that is out of its range. -/
def validate (s : Settings) : Except SettingsError Unit := do
  inRange "max_threads" s.maxThreads 1 100000 "The main thread alone needs one slot"
  inRange "openmp.team_size" s.teamSize 2 64 "A team needs at least two threads to race"
  inRange "cuda.blocks" s.blocks 1 64 "Grids are modeled, not enumerated"
  inRange "cuda.threads_per_block" s.threadsPerBlock 1 64 "Blocks are modeled, not enumerated"

end Settings

end DataRace
