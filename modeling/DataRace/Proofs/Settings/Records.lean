import DataRace.Proofs.Json.Views
import DataRace.Proofs.Yaml.Overlay
import DataRace.Settings.Document
import Mathlib.Data.List.Perm.Subperm

/-!
# Records in documents

A record is a mapping that has only known names for keys.  A mapping that is laid over a record of
all names is a record exactly if it has no other names (`Settings.exists_named?_iff`): any other
name would be appended, and there would be more entries than names.

A field of such a record has the value that is laid over it, or keeps its lower value
(`Settings.field?_eq_some`); a group in it is again a mapping that is laid over the lower group
(`Settings.lookup_group`).
-/

namespace DataRace

namespace Settings

open Yaml (Named KeysDistinct)

/-! ### What a mapping sets -/

/-- What holds of the value that a mapping sets for a name, and what holds if it sets none. -/
def Sets (entries : List (Yaml × Yaml)) (name : String) (set : Yaml → Prop) (unset : Prop) : Prop :=
  match Yaml.lookup name entries with
  | some v => set v
  | none => unset

/-- The entries of the mapping under a name. -/
def group (entries : List (Yaml × Yaml)) (name : String) : List (Yaml × Yaml) :=
  match Yaml.lookup name entries with
  | some (.map sub) => sub
  | _ => []

/-! ### Records -/

section Record

variable {known : List String} {entries base patch : List (Yaml × Yaml)}
  {top : List (String × Yaml)}

/-- Entries with names for keys. -/
theorem exists_eq_map (h : entries.map Prod.fst = known.map .str) :
    ∃ top : List (String × Yaml), top.map Prod.fst = known ∧
      entries = top.map fun e => (.str e.1, e.2) := by
  induction entries generalizing known with
  | nil => exact ⟨[], (List.map_eq_nil_iff.1 h.symm).symm, rfl⟩
  | cons e entries ih =>
    obtain ⟨key, v⟩ := e
    obtain ⟨name, known, rfl, hkey, hrest⟩ := List.map_eq_cons_iff.1 h.symm
    obtain ⟨top, htop, rfl⟩ := ih hrest.symm
    obtain rfl : Yaml.str name = key := hkey
    exact ⟨(name, v) :: top, by rw [List.map_cons, htop], rfl⟩

/-- The value of a name among entries with names for keys. -/
theorem lookup_map (name : String) (top : List (String × Yaml)) :
    Yaml.lookup name (top.map fun e => (.str e.1, e.2)) = top.lookup name := by
  induction top with
  | nil => rfl
  | cons e top ih =>
    obtain ⟨k, v⟩ := e
    rw [List.map_cons, Yaml.lookup_cons_str, ih, List.lookup_cons]
    by_cases hk : k = name
    · subst hk
      rw [if_pos rfl, beq_self_eq_true]
    · rw [if_neg hk, beq_false_of_ne (Ne.symm hk)]

/-- Entries with the names of all fields for keys are read as they are. -/
theorem exists_named? (h : entries.map Prod.fst = known.map .str) (hknown : known.Nodup) :
    ∃ top, named? known (.map entries) = some top ∧
      ∀ name, top.lookup name = Yaml.lookup name entries := by
  obtain ⟨top, htop, rfl⟩ := exists_eq_map h
  refine ⟨top, ?_, fun name => (lookup_map name top).symm⟩
  have hnames : (top.map fun e => e.1) = known := htop
  refine Option.bind_eq_some_iff.2 ⟨top, ?_, ?_⟩
  · exact Json.mapM_map_some fun e _ => rfl
  · simp [hnames, hknown]

/-- A list that is read item by item keeps its length. -/
theorem length_of_mapM {α β : Type} {f : α → Option β} {l : List α} {bs : List β}
    (h : l.mapM f = some bs) : bs.length = l.length := by
  induction l generalizing bs with
  | nil =>
    cases h
    rfl
  | cons a l ih =>
    rw [List.mapM_cons] at h
    obtain ⟨first, -, h⟩ := Option.bind_eq_some_iff.1 h
    obtain ⟨rest, hrest, h⟩ := Option.bind_eq_some_iff.1 h
    cases h
    rw [List.length_cons, List.length_cons, ih hrest]

/-- There are no more entries than names of fields. -/
theorem length_le_of_named? (h : named? known (.map entries) = some top) :
    entries.length ≤ known.length := by
  unfold named? at h
  simp only [Yaml.entries?, Yaml.untag, Option.bind_eq_bind, Option.bind_some] at h
  obtain ⟨named, hnamed, h⟩ := Option.bind_eq_some_iff.1 h
  split at h
  · next hcheck =>
    simp only [Bool.and_eq_true, List.all_eq_true, decide_eq_true_eq] at hcheck
    have hlength := length_of_mapM hnamed
    have hle := (List.subperm_of_subset hcheck.2 fun n hn => hcheck.1 n hn).length_le
    rwa [List.length_map, hlength] at hle
  · cases h

/-- A mapping that is laid over all fields can be read if it has names of fields only. -/
theorem exists_named?_iff (hbase : base.map Prod.fst = known.map .str) (hknown : known.Nodup) :
    (∃ top, named? known (.map (Yaml.overlay.overlayEntries base patch)) = some top) ↔
      Named known patch := by
  refine ⟨fun ⟨top, htop⟩ => ?_, fun hpatch => ?_⟩
  · have hlength : base.length = known.length := by
      rw [← List.length_map (f := Prod.fst), hbase, List.length_map]
    have hle := length_le_of_named? htop
    exact Yaml.named_of_length_eq hbase
      (Nat.le_antisymm (hlength ▸ hle) (Yaml.length_le_overlayEntries base patch))
  · obtain ⟨top, htop, -⟩ := exists_named? (Yaml.keys_overlayEntries hbase hpatch) hknown
    exact ⟨top, htop⟩

/-- What is read for a field of a mapping that is laid over all fields. -/
theorem lookup_of_named?
    (h : named? known (.map (Yaml.overlay.overlayEntries base patch)) = some top)
    (hbase : base.map Prod.fst = known.map .str) (hknown : known.Nodup)
    (hdistinct : KeysDistinct patch) (name : String) (lower : Yaml)
    (hlower : Yaml.lookup name base = some lower) :
    top.lookup name = some (((Yaml.lookup name patch).map (Yaml.overlay lower)).getD lower) := by
  have hpatch := (exists_named?_iff hbase hknown).1 ⟨top, h⟩
  obtain ⟨top', htop', hlookup⟩ := exists_named? (Yaml.keys_overlayEntries hbase hpatch) hknown
  obtain rfl := Option.some.inj (h.symm.trans htop')
  rw [hlookup, Yaml.lookup_overlayEntries hbase hpatch hdistinct, hlower, Option.map_some]

/-- A field that is no group is read from what the upper mapping sets, or has its lower value. -/
theorem field?_eq_some {α : Type} (read? : Yaml → Option α) {set : α → Yaml → Prop}
    (hread : ∀ v a, read? v = some a ↔ set a v) (default a : α) {low : α} {name : String}
    {lower : Yaml}
    (htop : top.lookup name = some (((Yaml.lookup name patch).map (Yaml.overlay lower)).getD lower))
    (hlower : ∀ sub, lower ≠ .map sub) (hlow : set low lower) :
    field? name read? default top = some a ↔ Sets patch name (set a) (a = low) := by
  unfold field? Sets
  rw [htop]
  cases Yaml.lookup name patch with
  | none =>
    dsimp only [Option.map_none, Option.getD_none]
    rw [(hread _ _).2 hlow, Option.some.injEq, eq_comm]
  | some v =>
    dsimp only [Option.map_some, Option.getD_some]
    rw [Yaml.overlay_of_not_map hlower]
    exact hread v a

/-- A group is laid over the lower group, and is that group if the upper mapping has none. -/
theorem lookup_group {name : String} {lower : List (Yaml × Yaml)}
    (hgroup : ∀ v, Yaml.lookup name patch = some v → ∃ sub, v = .map sub)
    (htop : top.lookup name =
      some (((Yaml.lookup name patch).map (Yaml.overlay (.map lower))).getD (.map lower))) :
    (top.lookup name).getD .null = .map (Yaml.overlay.overlayEntries lower (group patch name)) := by
  unfold group
  rw [htop]
  cases hv : Yaml.lookup name patch with
  | none => rfl
  | some v =>
    obtain ⟨sub, rfl⟩ := hgroup v hv
    rfl

end Record

end Settings

end DataRace
