import DataRace.Proofs.Except
import DataRace.Proofs.Settings.Records
import DataRace.Proofs.Yaml.Neat

/-!
# Settings and their documents

A document of the supported version names a preset, or none, and sets fields.  It is read exactly if
its keys are names of fields, its values have the types of these fields and the settings that come
out are valid.  What comes out are the settings of the preset with what the document sets
(`Settings.ofMapping_eq_ok`); a group that sets some of its fields leaves the others as the preset
has them.  Keys must not repeat, which they never do in what a text holds
(`Settings.IsHeaded.isVersioned`).

The document of valid settings sets all fields, so it is read back as these settings
(`Settings.ofMapping_overrides`).
-/

namespace DataRace

/-! ### Names -/

/-- The selection of a name. -/
theorem RuntimeSelection.ofName?_eq_some {name : String} {r : RuntimeSelection} :
    ofName? name = some r ↔ name = r.name := by
  constructor
  · intro h
    unfold ofName? at h
    split at h <;> cases h <;> rfl
  · rintro rfl
    cases r <;> rfl

/-- The preset of a name. -/
theorem Preset.ofName_eq_ok {name : String} {preset : Preset} :
    ofName name = .ok preset ↔ String.ofList (name.toList.map Char.toLower) = preset.name := by
  unfold ofName
  constructor
  · intro h
    split at h <;> cases h <;> assumption
  · intro h
    rw [h]
    cases preset <;> rfl

namespace Settings

open Yaml (Named KeysDistinct)

/-- What is read as a runtime. -/
theorem runtime?_eq_some {v : Yaml} {r : RuntimeSelection} :
    runtime? v = some r ↔ v = .str r.name ∨ v = .tagged r.name .null := by
  unfold runtime?
  split
  · next name => simp [RuntimeSelection.ofName?_eq_some]
  · next name => simp [RuntimeSelection.ofName?_eq_some]
  · next hstr htag =>
    refine ⟨fun hnone => (nomatch hnone), ?_⟩
    rintro (h | h)
    · exact absurd h (hstr _)
    · exact absurd h (htag _)

/-! ### What a document sets -/

/-- The names of the fields and groups of settings. -/
def fieldNames : List String :=
  ["entry", "runtime", "dedup_calls", "max_threads", "parallel", "openmp", "cuda"]

/-- Settings have what a document sets, which is of the type of the field, and what other settings
have where it sets nothing. -/
structure Overrides (entries : List (Yaml × Yaml)) (base s : Settings) : Prop where
  entry : Sets entries "entry" (fun v => v.untag = .str s.entry) (s.entry = base.entry)
  runtime : Sets entries "runtime"
    (fun v => v = .str s.runtime.name ∨ v = .tagged s.runtime.name .null) (s.runtime = base.runtime)
  dedupCalls : Sets entries "dedup_calls" (fun v => v.untag = .bool s.dedupCalls)
    (s.dedupCalls = base.dedupCalls)
  maxThreads : Sets entries "max_threads"
    (fun v => v.untag = .int s.maxThreads ∧ s.maxThreads < 2 ^ 64) (s.maxThreads = base.maxThreads)
  isParallel : Sets entries "parallel" (fun v => v.untag = .bool s.isParallel)
    (s.isParallel = base.isParallel)
  teamSize : Sets (group entries "openmp") "team_size"
    (fun v => v.untag = .int s.teamSize ∧ s.teamSize < 2 ^ 32) (s.teamSize = base.teamSize)
  blocks : Sets (group entries "cuda") "blocks"
    (fun v => v.untag = .int s.blocks ∧ s.blocks < 2 ^ 32) (s.blocks = base.blocks)
  threadsPerBlock : Sets (group entries "cuda") "threads_per_block"
    (fun v => v.untag = .int s.threadsPerBlock ∧ s.threadsPerBlock < 2 ^ 32)
    (s.threadsPerBlock = base.threadsPerBlock)

/-- All keys of a document are names of fields, also in its groups. -/
structure KnowsFields (entries : List (Yaml × Yaml)) : Prop where
  top : Named ("version" :: "preset" :: fieldNames) entries
  openmp : Named ["team_size"] (group entries "openmp")
  cuda : Named ["blocks", "threads_per_block"] (group entries "cuda")

/-- A document of the supported version with a known preset, in any letter case, or none, in which
groups are mappings and no mapping repeats a key. -/
structure IsVersioned (entries : List (Yaml × Yaml)) (preset : Preset) : Prop where
  distinct : KeysDistinct entries
  version : ∃ v, Yaml.lookup "version" entries = some v ∧ v.untag = .int supportedVersion
  preset : Sets entries "preset"
    (fun v => ∃ name, v.untag = .str name ∧
      String.ofList (name.toList.map Char.toLower) = preset.name) (preset = .balanced)
  groups : ∀ name ∈ ["openmp", "cuda"], ∀ v, Yaml.lookup name entries = some v →
    ∃ sub, v = .map sub ∧ KeysDistinct sub

/-- A document of the supported version with a known preset, in any letter case, or none, in which
groups are mappings.  Keys may repeat. -/
structure IsHeaded (entries : List (Yaml × Yaml)) (preset : Preset) : Prop where
  version : ∃ v, Yaml.lookup "version" entries = some v ∧ v.untag = .int supportedVersion
  preset : Sets entries "preset"
    (fun v => ∃ name, v.untag = .str name ∧
      String.ofList (name.toList.map Char.toLower) = preset.name) (preset = .balanced)
  groups : ∀ name ∈ ["openmp", "cuda"], ∀ v, Yaml.lookup name entries = some v →
    ∃ sub, v = .map sub

/-! ### Reading -/

/-- The records that a mapping of all fields is read as. -/
structure Records (v : Yaml) (top openmp cuda : List (String × Yaml)) : Prop where
  fields : named? fieldNames v = some top
  openmp : named? ["team_size"] ((top.lookup "openmp").getD .null) = some openmp
  cuda : named? ["blocks", "threads_per_block"] ((top.lookup "cuda").getD .null) = some cuda

/-- The fields of settings are read from records. -/
structure Reads (top openmp cuda : List (String × Yaml)) (s : Settings) : Prop where
  entry : field? "entry" Yaml.str? default.entry top = some s.entry
  runtime : field? "runtime" runtime? default.runtime top = some s.runtime
  dedupCalls : field? "dedup_calls" Yaml.bool? default.dedupCalls top = some s.dedupCalls
  maxThreads : field? "max_threads" (Yaml.natBelow? (Nat.pow 2 64)) default.maxThreads top =
    some s.maxThreads
  isParallel : field? "parallel" Yaml.bool? default.isParallel top = some s.isParallel
  teamSize : field? "team_size" size? default.teamSize openmp = some s.teamSize
  blocks : field? "blocks" size? default.blocks cuda = some s.blocks
  threadsPerBlock : field? "threads_per_block" size? default.threadsPerBlock cuda =
    some s.threadsPerBlock

/-- Settings are read from a mapping if its records are read and all fields from these. -/
theorem ofFields?_eq_some {v : Yaml} {s : Settings} :
    ofFields? v = some s ↔
      ∃ top openmp cuda, Records v top openmp cuda ∧ Reads top openmp cuda s := by
  unfold ofFields?
  simp only [Option.bind_eq_bind, Option.bind_eq_some_iff, Option.some.injEq]
  constructor
  · rintro ⟨top, htop, openmp, hopenmp, cuda, hcuda, entry, hentry, runtime, hruntime, dedupCalls,
      hdedupCalls, maxThreads, hmaxThreads, isParallel, hisParallel, teamSize, hteamSize, blocks,
      hblocks, threadsPerBlock, hthreadsPerBlock, rfl⟩
    exact ⟨top, openmp, cuda, ⟨htop, hopenmp, hcuda⟩, hentry, hruntime, hdedupCalls, hmaxThreads,
      hisParallel, hteamSize, hblocks, hthreadsPerBlock⟩
  · rintro ⟨top, openmp, cuda, h, hs⟩
    exact ⟨top, h.fields, openmp, h.openmp, cuda, h.cuda, _, hs.entry, _, hs.runtime, _,
      hs.dedupCalls, _, hs.maxThreads, _, hs.isParallel, _, hs.teamSize, _, hs.blocks, _,
      hs.threadsPerBlock, rfl⟩

/-- The mapping of all fields of settings. -/
def record (s : Settings) : List (Yaml × Yaml) := Yaml.Outline.toYaml.entriesToYaml s.fields

/-- The group of teams in the mapping of settings. -/
def teamRecord (s : Settings) : List (Yaml × Yaml) := [(.str "team_size", .int s.teamSize)]

/-- The group of kernels in the mapping of settings. -/
def gridRecord (s : Settings) : List (Yaml × Yaml) :=
  [(.str "blocks", .int s.blocks), (.str "threads_per_block", .int s.threadsPerBlock)]

/-- The keys of the mapping of settings. -/
theorem keys_record (s : Settings) : s.record.map Prod.fst = fieldNames.map .str := rfl

/-- The keys of the group of teams. -/
theorem keys_teamRecord (s : Settings) : s.teamRecord.map Prod.fst = ["team_size"].map .str := rfl

/-- The keys of the group of kernels. -/
theorem keys_gridRecord (s : Settings) :
    s.gridRecord.map Prod.fst = ["blocks", "threads_per_block"].map .str := rfl

/-- The keys of the document of settings. -/
theorem keys_toMapping (s : Settings) :
    s.toMapping.map Prod.fst = ("version" :: fieldNames).map .str := rfl

/-- Sizes have their width. -/
structure IsSized (s : Settings) : Prop where
  maxThreads : s.maxThreads < 2 ^ 64
  teamSize : s.teamSize < 2 ^ 32
  blocks : s.blocks < 2 ^ 32
  threadsPerBlock : s.threadsPerBlock < 2 ^ 32

/-- The settings of presets are small. -/
theorem isSized_preset (preset : Preset) : (Settings.preset preset).IsSized := by
  cases preset <;> exact ⟨by decide, by decide, by decide, by decide⟩

/-- Valid settings are small. -/
theorem isSized_of_validate {s : Settings} (h : s.validate = .ok ()) : s.IsSized := by
  have hrange : ∀ {field value low high hint}, inRange field value low high hint = .ok () →
      value ≤ high := by
    intro field value low high hint h
    unfold inRange at h
    split at h
    · next hbounds => exact hbounds.2
    · cases h
  obtain ⟨_, hthreads, h⟩ := Except.bind_eq_ok.1 h
  obtain ⟨_, hteam, h⟩ := Except.bind_eq_ok.1 h
  obtain ⟨_, hblocks, hblock⟩ := Except.bind_eq_ok.1 h
  exact ⟨Nat.lt_of_le_of_lt (hrange hthreads) (by decide),
    Nat.lt_of_le_of_lt (hrange hteam) (by decide), Nat.lt_of_le_of_lt (hrange hblocks) (by decide),
    Nat.lt_of_le_of_lt (hrange hblock) (by decide)⟩

section Overlaid

variable {base s : Settings} {patch : List (Yaml × Yaml)} {top openmp cuda : List (String × Yaml)}

/-- The fields that are read are what the upper mapping sets, or those of the lower settings. -/
theorem reads_iff (hbase : base.IsSized) (hdistinct : KeysDistinct patch)
    (hapart : ∀ name ∈ ["openmp", "cuda"], KeysDistinct (group patch name))
    (htop : named? fieldNames (.map (Yaml.overlay.overlayEntries base.record patch)) = some top)
    (hopenmp : named? ["team_size"]
      (.map (Yaml.overlay.overlayEntries base.teamRecord (group patch "openmp"))) = some openmp)
    (hcuda : named? ["blocks", "threads_per_block"]
      (.map (Yaml.overlay.overlayEntries base.gridRecord (group patch "cuda"))) = some cuda) :
    Reads top openmp cuda s ↔ Overrides patch base s := by
  have hnat : ∀ {bound} (v : Yaml) (n : Nat),
      v.natBelow? bound = some n ↔ v.untag = .int n ∧ n < bound := fun _ _ =>
    Yaml.natBelow?_eq_some
  have hfield := lookup_of_named? htop base.keys_record (by decide) hdistinct
  have hteamField := lookup_of_named? hopenmp base.keys_teamRecord (by decide)
    (hapart "openmp" (by decide))
  have hgridField := lookup_of_named? hcuda base.keys_gridRecord (by decide)
    (hapart "cuda" (by decide))
  -- What is set is what was read, field by field.
  have hentry := field?_eq_some Yaml.str? (fun _ _ => Yaml.str?_eq_some) default.entry s.entry
    (hfield "entry" (.str base.entry) rfl) nofun rfl
  have hruntime := field?_eq_some runtime? (fun _ _ => runtime?_eq_some) default.runtime s.runtime
    (hfield "runtime" (.str base.runtime.name) rfl) nofun (Or.inl rfl)
  have hdedupCalls := field?_eq_some Yaml.bool? (fun _ _ => Yaml.bool?_eq_some) default.dedupCalls
    s.dedupCalls (hfield "dedup_calls" (.bool base.dedupCalls) rfl) nofun rfl
  have hmaxThreads := field?_eq_some (Yaml.natBelow? (Nat.pow 2 64)) hnat default.maxThreads
    s.maxThreads (hfield "max_threads" (.int base.maxThreads) rfl) nofun ⟨rfl, hbase.maxThreads⟩
  have hisParallel := field?_eq_some Yaml.bool? (fun _ _ => Yaml.bool?_eq_some) default.isParallel
    s.isParallel (hfield "parallel" (.bool base.isParallel) rfl) nofun rfl
  have hteamSize := field?_eq_some size? hnat default.teamSize s.teamSize
    (hteamField "team_size" (.int base.teamSize) rfl) nofun ⟨rfl, hbase.teamSize⟩
  have hblocks := field?_eq_some size? hnat default.blocks s.blocks
    (hgridField "blocks" (.int base.blocks) rfl) nofun ⟨rfl, hbase.blocks⟩
  have hthreadsPerBlock := field?_eq_some size? hnat default.threadsPerBlock s.threadsPerBlock
    (hgridField "threads_per_block" (.int base.threadsPerBlock) rfl) nofun
    ⟨rfl, hbase.threadsPerBlock⟩
  constructor
  · intro h
    exact ⟨hentry.1 h.entry, hruntime.1 h.runtime, hdedupCalls.1 h.dedupCalls,
      hmaxThreads.1 h.maxThreads, hisParallel.1 h.isParallel, hteamSize.1 h.teamSize,
      hblocks.1 h.blocks, hthreadsPerBlock.1 h.threadsPerBlock⟩
  · intro h
    exact ⟨hentry.2 h.entry, hruntime.2 h.runtime, hdedupCalls.2 h.dedupCalls,
      hmaxThreads.2 h.maxThreads, hisParallel.2 h.isParallel, hteamSize.2 h.teamSize,
      hblocks.2 h.blocks, hthreadsPerBlock.2 h.threadsPerBlock⟩

/-- What is read of a mapping that is laid over the fields of settings: its names are those of
fields, and the settings have what it sets. -/
theorem ofFields?_overlaid (hbase : base.IsSized) (hdistinct : KeysDistinct patch)
    (hgroups : ∀ name ∈ ["openmp", "cuda"], ∀ v, Yaml.lookup name patch = some v →
      ∃ sub, v = .map sub ∧ KeysDistinct sub) :
    ofFields? (.map (Yaml.overlay.overlayEntries base.record patch)) = some s ↔
      (Named fieldNames patch ∧ Named ["team_size"] (group patch "openmp") ∧
        Named ["blocks", "threads_per_block"] (group patch "cuda")) ∧ Overrides patch base s := by
  have hapart : ∀ name ∈ ["openmp", "cuda"], KeysDistinct (group patch name) := by
    intro name hname
    unfold group
    split
    · next sub hsub =>
      obtain ⟨sub', heq, hsub'⟩ := hgroups name hname _ hsub
      cases heq
      exact hsub'
    · exact List.Pairwise.nil
  have hmap : ∀ name ∈ ["openmp", "cuda"], ∀ v, Yaml.lookup name patch = some v →
      ∃ sub, v = .map sub := fun name hname v hv => (hgroups name hname v hv).imp fun _ => And.left
  have hteam : "openmp" ∈ ["openmp", "cuda"] := by decide
  have hgrid : "cuda" ∈ ["openmp", "cuda"] := by decide
  rw [ofFields?_eq_some]
  constructor
  · rintro ⟨top, openmp, cuda, ⟨htop, hopenmp, hcuda⟩, hreads⟩
    have hfield := lookup_of_named? htop base.keys_record (by decide) hdistinct
    rw [lookup_group (hmap _ hteam) (hfield "openmp" (.map base.teamRecord) rfl)] at hopenmp
    rw [lookup_group (hmap _ hgrid) (hfield "cuda" (.map base.gridRecord) rfl)] at hcuda
    refine ⟨⟨?_, ?_, ?_⟩, ?_⟩
    · exact (exists_named?_iff base.keys_record (by decide)).1 ⟨top, htop⟩
    · exact (exists_named?_iff base.keys_teamRecord (by decide)).1 ⟨openmp, hopenmp⟩
    · exact (exists_named?_iff base.keys_gridRecord (by decide)).1 ⟨cuda, hcuda⟩
    · exact (reads_iff hbase hdistinct hapart htop hopenmp hcuda).1 hreads
  · rintro ⟨⟨hnamed, hnamedTeam, hnamedGrid⟩, hs⟩
    obtain ⟨top, htop⟩ := (exists_named?_iff base.keys_record (by decide)).2 hnamed
    obtain ⟨openmp, hopenmp⟩ := (exists_named?_iff base.keys_teamRecord (by decide)).2 hnamedTeam
    obtain ⟨cuda, hcuda⟩ := (exists_named?_iff base.keys_gridRecord (by decide)).2 hnamedGrid
    have hfield := lookup_of_named? htop base.keys_record (by decide) hdistinct
    refine ⟨top, openmp, cuda, ⟨htop, ?_, ?_⟩, ?_⟩
    · rw [lookup_group (hmap _ hteam) (hfield "openmp" (.map base.teamRecord) rfl), hopenmp]
    · rw [lookup_group (hmap _ hgrid) (hfield "cuda" (.map base.gridRecord) rfl), hcuda]
    · exact (reads_iff hbase hdistinct hapart htop hopenmp hcuda).2 hs

end Overlaid

/-! ### Documents -/

section Document

variable {entries : List (Yaml × Yaml)} {preset : Preset} {s : Settings}

/-- The fields of a document, without its version and its preset. -/
def patchOf (entries : List (Yaml × Yaml)) : List (Yaml × Yaml) :=
  Yaml.remove "preset" (Yaml.remove "version" entries)

/-- The fields of a document have their values in it. -/
theorem lookup_patchOf {name : String} (hname : name ∈ fieldNames)
    (entries : List (Yaml × Yaml)) :
    Yaml.lookup name (patchOf entries) = Yaml.lookup name entries := by
  have hversion : name ≠ "version" := ne_of_mem_of_not_mem hname (by decide)
  have hpreset : name ≠ "preset" := ne_of_mem_of_not_mem hname (by decide)
  rw [patchOf, Yaml.lookup_remove hpreset, Yaml.lookup_remove hversion]

/-- The groups of a document are those of its fields. -/
theorem group_patchOf {name : String} (hname : name ∈ fieldNames) (entries : List (Yaml × Yaml)) :
    group (patchOf entries) name = group entries name := by
  rw [group, group, lookup_patchOf hname]

/-- What a document sets depends on the values of its fields only. -/
theorem Overrides.of_lookup_eq {entries' : List (Yaml × Yaml)} {base : Settings}
    (h : ∀ name ∈ fieldNames, Yaml.lookup name entries' = Yaml.lookup name entries)
    (hs : Overrides entries base s) : Overrides entries' base s := by
  have hsets : ∀ {name set unset}, name ∈ fieldNames → Sets entries name set unset →
      Sets entries' name set unset := fun hname hset => by rwa [Sets, h _ hname]
  have hgroup : ∀ name ∈ fieldNames, group entries' name = group entries name :=
    fun name hname => by rw [group, group, h name hname]
  constructor
  · exact hsets (by decide) hs.entry
  · exact hsets (by decide) hs.runtime
  · exact hsets (by decide) hs.dedupCalls
  · exact hsets (by decide) hs.maxThreads
  · exact hsets (by decide) hs.isParallel
  · rw [hgroup "openmp" (by decide)]
    exact hs.teamSize
  · rw [hgroup "cuda" (by decide)]
    exact hs.blocks
  · rw [hgroup "cuda" (by decide)]
    exact hs.threadsPerBlock

/-- Settings have what a document sets if they have what its fields set. -/
theorem overrides_patchOf {base : Settings} :
    Overrides (patchOf entries) base s ↔ Overrides entries base s :=
  ⟨.of_lookup_eq fun _ hname => (lookup_patchOf hname entries).symm,
    .of_lookup_eq fun _ hname => lookup_patchOf hname entries⟩

/-- All keys of a document are known if those of its fields and groups are names of fields. -/
theorem knowsFields_iff :
    KnowsFields entries ↔ Named fieldNames (patchOf entries) ∧
      Named ["team_size"] (group (patchOf entries) "openmp") ∧
        Named ["blocks", "threads_per_block"] (group (patchOf entries) "cuda") := by
  have htop : Named fieldNames (patchOf entries) ↔
      Named ("version" :: "preset" :: fieldNames) entries :=
    (Yaml.named_remove (by decide) _).trans (Yaml.named_remove (by decide) _)
  rw [htop, group_patchOf (by decide), group_patchOf (by decide)]
  exact ⟨fun h => ⟨h.top, h.openmp, h.cuda⟩, fun ⟨top, openmp, cuda⟩ => ⟨top, openmp, cuda⟩⟩

/-- A value that must be there is the one that was read. -/
theorem orMalformed_eq_ok {α : Type} {x : Option α} {a : α} :
    orMalformed x = .ok a ↔ x = some a := by
  cases x with
  | none => exact ⟨nofun, nofun⟩
  | some b => rw [orMalformed, Except.ok.injEq, Option.some.injEq]

/-- The version of a document of the supported version. -/
theorem IsVersioned.readVersion_eq (h : IsVersioned entries preset) :
    readVersion entries = .ok supportedVersion := by
  obtain ⟨v, hv, hone⟩ := h.version
  unfold readVersion
  rw [hv]
  exact orMalformed_eq_ok.2 (Yaml.natBelow?_eq_some.2 ⟨hone, by decide⟩)

/-- The preset of a document that names a known one, or none. -/
theorem IsVersioned.readPreset_eq (h : IsVersioned entries preset) :
    readPreset entries = .ok preset := by
  have hpreset := h.preset
  unfold readPreset
  unfold Sets at hpreset
  split
  · next hnone =>
    rw [hnone] at hpreset
    rw [hpreset]
  · next v hv =>
    rw [hv] at hpreset
    obtain ⟨name, hname, hlower⟩ := hpreset
    exact Except.bind_eq_ok.2
      ⟨name, orMalformed_eq_ok.2 (Yaml.str?_eq_some.2 hname), Preset.ofName_eq_ok.2 hlower⟩

/-- The settings of a document are those of its preset with what it sets, if all its keys are known
and these settings are valid. -/
theorem ofMapping_eq_ok (h : IsVersioned entries preset) :
    ofMapping entries = .ok s ↔
      KnowsFields entries ∧ Overrides entries (Settings.preset preset) s ∧ s.validate = .ok () := by
  have hdistinct : KeysDistinct (patchOf entries) :=
    (h.distinct.sublist List.filter_sublist).sublist List.filter_sublist
  have hsub : ∀ name ∈ ["openmp", "cuda"], name ∈ fieldNames := by decide
  have hgroups : ∀ name ∈ ["openmp", "cuda"], ∀ v, Yaml.lookup name (patchOf entries) = some v →
      ∃ sub, v = .map sub ∧ KeysDistinct sub := fun name hname v hv =>
    h.groups name hname v ((lookup_patchOf (hsub name hname) entries).symm.trans hv)
  have hfields : ofFields? (.map
      (Yaml.overlay.overlayEntries (Settings.preset preset).record (patchOf entries))) = some s ↔
        KnowsFields entries ∧ Overrides entries (Settings.preset preset) s := by
    rw [knowsFields_iff, ← overrides_patchOf]
    exact ofFields?_overlaid (isSized_preset preset) hdistinct hgroups
  rw [← and_assoc, ← hfields]
  constructor
  · intro hread
    obtain ⟨version, hversion, hread⟩ := Except.bind_eq_ok.1 hread
    obtain rfl := Except.ok.inj (h.readVersion_eq.symm.trans hversion)
    obtain ⟨name, hname, hread⟩ := Except.bind_eq_ok.1 hread
    obtain rfl := Except.ok.inj (h.readPreset_eq.symm.trans hname)
    obtain ⟨settings, hsettings, hread⟩ := Except.bind_eq_ok.1 hread
    obtain ⟨_, hvalid, hread⟩ := Except.bind_eq_ok.1 hread
    obtain rfl := Except.ok.inj hread
    exact ⟨orMalformed_eq_ok.1 hsettings, hvalid⟩
  · rintro ⟨hsettings, hvalid⟩
    refine Except.bind_eq_ok.2 ⟨supportedVersion, h.readVersion_eq, ?_⟩
    refine Except.bind_eq_ok.2 ⟨preset, h.readPreset_eq, ?_⟩
    refine Except.bind_eq_ok.2 ⟨s, orMalformed_eq_ok.2 hsettings, ?_⟩
    exact Except.bind_eq_ok.2 ⟨(), hvalid, rfl⟩

/-- A mapping that a text holds repeats no key, so it only has to have its version, its preset and
mappings for groups. -/
theorem IsHeaded.isVersioned (h : IsHeaded entries preset) {text : String}
    (hread : Yaml.readMapping? text = some entries) : IsVersioned entries preset := by
  have hneat := Yaml.neat_of_readMapping? hread
  refine ⟨hneat.keysDistinct, h.version, h.preset, fun name hname v hv => ?_⟩
  obtain ⟨sub, rfl⟩ := h.groups name hname v hv
  exact ⟨sub, rfl, (hneat.of_lookup hv).keysDistinct⟩

/-- A text that holds a mapping is read as the mapping is. -/
theorem parse_of_readMapping? {text : String} (hread : Yaml.readMapping? text = some entries) :
    parse text = ofMapping entries := by
  rw [parse, hread]
  rfl

/-! ### Round trips -/

/-- The document of settings is of the supported version and names no preset. -/
theorem isVersioned_toMapping (s : Settings) : IsVersioned s.toMapping .balanced where
  distinct := Yaml.keysDistinct_of_keys s.keys_toMapping (by decide)
  version := ⟨.int supportedVersion, rfl, rfl⟩
  preset := rfl
  groups := by
    refine List.forall_mem_cons.2 ⟨?_, List.forall_mem_singleton.2 ?_⟩
    · rintro v ⟨⟩
      exact ⟨s.teamRecord, rfl, List.pairwise_singleton _ _⟩
    · rintro v ⟨⟩
      exact ⟨s.gridRecord, rfl, Yaml.keysDistinct_of_keys s.keys_gridRecord (by decide)⟩

/-- The document of settings has names of fields only. -/
theorem knowsFields_toMapping (s : Settings) : KnowsFields s.toMapping where
  top := by
    have hsub : ∀ name ∈ "version" :: fieldNames, name ∈ "version" :: "preset" :: fieldNames := by
      decide
    intro e he
    obtain ⟨name, hname, hkey⟩ := Yaml.named_of_keys s.keys_toMapping e he
    exact ⟨name, hsub name hname, hkey⟩
  openmp := Yaml.named_of_keys s.keys_teamRecord
  cuda := Yaml.named_of_keys s.keys_gridRecord

/-- The document of settings sets all fields. -/
theorem overrides_toMapping {s : Settings} (h : s.IsSized) (base : Settings) :
    Overrides s.toMapping base s where
  entry := rfl
  runtime := Or.inl rfl
  dedupCalls := rfl
  maxThreads := ⟨rfl, h.maxThreads⟩
  isParallel := rfl
  teamSize := ⟨rfl, h.teamSize⟩
  blocks := ⟨rfl, h.blocks⟩
  threadsPerBlock := ⟨rfl, h.threadsPerBlock⟩

/-- The document of valid settings is read back as these settings. -/
theorem ofMapping_toMapping (hvalid : s.validate = .ok ()) : ofMapping s.toMapping = .ok s :=
  (ofMapping_eq_ok (isVersioned_toMapping s)).2
    ⟨knowsFields_toMapping s, overrides_toMapping (isSized_of_validate hvalid) _, hvalid⟩

/-- Where the text of valid settings is read as their document, it is read back as the settings. -/
theorem parse_render (hread : Yaml.readMapping? s.render = some s.toMapping)
    (hvalid : s.validate = .ok ()) : parse s.render = .ok s :=
  (parse_of_readMapping? hread).trans (ofMapping_toMapping hvalid)

end Document

/-- The document of valid settings is read back as these settings.  A document of the supported
version, with a known preset or none, is read exactly if all its keys, also those in groups, are
names of fields and its values are those of valid settings, the fields without a value being as the
preset has them; and these are the settings that are read.  The same holds of texts: the text of
valid settings is read back if it is read as their document, and a text is read as the mapping that
it holds, which repeats no key. -/
theorem ofMapping_overrides :
    (∀ s : Settings, s.validate = .ok () → ofMapping s.toMapping = .ok s) ∧
      (∀ entries preset, IsVersioned entries preset →
        ((∃ s, ofMapping entries = .ok s) ↔
          KnowsFields entries ∧
            ∃ s, Overrides entries (Settings.preset preset) s ∧ s.validate = .ok ()) ∧
        ∀ s, ofMapping entries = .ok s → Overrides entries (Settings.preset preset) s) ∧
      (∀ s : Settings, s.validate = .ok () → Yaml.readMapping? s.render = some s.toMapping →
        parse s.render = .ok s) ∧
      ∀ text entries preset, Yaml.readMapping? text = some entries → IsHeaded entries preset →
        IsVersioned entries preset ∧ parse text = ofMapping entries := by
  refine ⟨fun s => ofMapping_toMapping, fun entries preset h => ⟨⟨?_, ?_⟩, ?_⟩,
    fun s hvalid hread => parse_render hread hvalid,
    fun text entries preset hread h => ⟨h.isVersioned hread, parse_of_readMapping? hread⟩⟩
  · rintro ⟨s, hs⟩
    obtain ⟨hknown, hset, hvalid⟩ := (ofMapping_eq_ok h).1 hs
    exact ⟨hknown, s, hset, hvalid⟩
  · rintro ⟨hknown, s, hset, hvalid⟩
    exact ⟨s, (ofMapping_eq_ok h).2 ⟨hknown, hset, hvalid⟩⟩
  · intro s hs
    exact ((ofMapping_eq_ok h).1 hs).2.1

/-- A document with a preset in capitals that sets a field and one of two fields of a group. -/
def sparse : List (Yaml × Yaml) :=
  [(.str "version", .int 1), (.str "preset", .str "FAST"), (.str "entry", .str "start"),
    (.str "cuda", .map [(.str "threads_per_block", .int 8)])]

/-- A text that holds this document. -/
def sparseText : String :=
  "version: 1\npreset: FAST\nentry: start\ncuda:\n  threads_per_block: 8\n"

/-- The settings of `sparse` have the number of blocks of the preset, which is not the default. -/
def sparseSettings : Settings :=
  { Settings.preset .fast with entry := "start", threadsPerBlock := 8 }

/-- The text is read as the document. -/
theorem readMapping?_sparseText : Yaml.readMapping? sparseText = some sparse :=
  Yaml.readMapping?_eq (by decide +kernel)

/-- The text of the thorough preset is read as its document. -/
theorem readMapping?_thorough :
    Yaml.readMapping? (Settings.preset .thorough).render =
      some (Settings.preset .thorough).toMapping :=
  Yaml.readMapping?_eq (by decide +kernel)

/-- Settings that are read back, and a sparse document that is read over its preset, both also from
their texts. -/
theorem sparse_overrides :
    (Settings.preset .thorough).validate = .ok () ∧
      ofMapping (Settings.preset .thorough).toMapping = .ok (Settings.preset .thorough) ∧
      IsVersioned sparse .fast ∧ ofMapping sparse = .ok sparseSettings ∧
      (∃ s, Overrides sparse (Settings.preset .fast) s ∧ s.validate = .ok ()) ∧
      Overrides sparse (Settings.preset .fast) sparseSettings ∧
      parse (Settings.preset .thorough).render = .ok (Settings.preset .thorough) ∧
      parse sparseText = .ok sparseSettings := by
  have hvalid : (Settings.preset .thorough).validate = .ok () := rfl
  have hheaded : IsHeaded sparse .fast := by
    refine ⟨⟨_, rfl, rfl⟩, ⟨"FAST", rfl, by decide⟩, ?_⟩
    refine List.forall_mem_cons.2 ⟨nofun, List.forall_mem_singleton.2 ?_⟩
    rintro v ⟨⟩
    exact ⟨_, rfl⟩
  have hread : ofMapping sparse = .ok sparseSettings := rfl
  obtain ⟨hback, hdocuments, hrendered, htexts⟩ := ofMapping_overrides
  obtain ⟨hversioned, hparse⟩ := htexts sparseText sparse .fast readMapping?_sparseText hheaded
  obtain ⟨hiff, hset⟩ := hdocuments sparse .fast hversioned
  exact ⟨hvalid, hback _ hvalid, hversioned, hread, (hiff.1 ⟨_, hread⟩).2, hset _ hread,
    hrendered _ hvalid readMapping?_thorough, hparse.trans hread⟩

end Settings

end DataRace
