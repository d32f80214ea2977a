import DataRace.Yaml.Overlay
import Mathlib.Data.List.Basic

/-!
# Mappings laid over mappings

Laying a mapping over another one keeps the entries of the lower one in their places and appends
what is new.  If nothing was appended, the upper mapping has names of the lower one only
(`Yaml.named_of_length_eq`).  The value of a name is then the lower value with what the upper
mapping sets for that name, if it sets anything (`Yaml.lookup_overlayEntries`).  Removing a key from
a mapping leaves the values of the other names (`Yaml.lookup_remove`).
-/

namespace DataRace

namespace Yaml

/-! ### Keys -/

/-- Only the text itself is the same as a text. -/
theorem beq_str_iff {v : Yaml} {name : String} : (v == .str name) = true ↔ v = .str name := by
  show isSame v (.str name) = true ↔ v = .str name
  cases v <;> simp [isSame]

/-- A text is the same as itself only. -/
theorem str_beq_iff {v : Yaml} {name : String} : (Yaml.str name == v) = true ↔ v = .str name := by
  show isSame (.str name) v = true ↔ v = .str name
  cases v with
  | str text => simp [isSame, eq_comm (a := name)]
  | null | bool | int | float | infinity | nan | seq | map | tagged => simp [isSame]

/-- No two entries have the same key, as in every mapping that is read. -/
def KeysDistinct (entries : List (Yaml × Yaml)) : Prop :=
  entries.Pairwise fun e e' => (e'.1 == e.1) = false

/-- The keys of all entries are among some names. -/
def Named (names : List String) (entries : List (Yaml × Yaml)) : Prop :=
  ∀ e ∈ entries, ∃ name ∈ names, e.1 = .str name

variable {base patch : List (Yaml × Yaml)} {names : List String}

/-- Entries whose keys are names, one after the other, have these names. -/
theorem named_of_keys (h : base.map Prod.fst = names.map .str) : Named names base := by
  intro e he
  have hkey : e.1 ∈ names.map Yaml.str := h ▸ List.mem_map_of_mem he
  obtain ⟨name, hname, hkey⟩ := List.mem_map.1 hkey
  exact ⟨name, hname, hkey.symm⟩

/-- Entries whose keys are different names have different keys. -/
theorem keysDistinct_of_keys (h : base.map Prod.fst = names.map .str) (hnames : names.Nodup) :
    KeysDistinct base := by
  have hkeys : (base.map Prod.fst).Pairwise fun key key' => (key' == key) = false := by
    rw [h, List.pairwise_map]
    refine hnames.imp fun hne => Bool.eq_false_iff.2 fun hsame => hne ?_
    exact (Yaml.str.inj (beq_str_iff.1 hsame)).symm
  exact List.pairwise_map.1 hkeys

/-! ### One entry -/

/-- The value of a name, when the first entry has a name. -/
theorem lookup_cons_str (name k : String) (v : Yaml) (entries : List (Yaml × Yaml)) :
    lookup name ((.str k, v) :: entries) = if k = name then some v else lookup name entries := rfl

/-- A name that no entry has. -/
theorem lookup_eq_none {name : String} (h : ∀ e ∈ base, e.1 ≠ .str name) :
    lookup name base = none := by
  induction base with
  | nil => rfl
  | cons e base ih =>
    obtain ⟨key, v⟩ := e
    have hrest := ih fun e he => h e (List.mem_cons_of_mem _ he)
    cases key with
    | str k =>
      have hne : k ≠ name := fun heq => h _ List.mem_cons_self (congrArg Yaml.str heq)
      rw [lookup_cons_str, if_neg hne, hrest]
    | null | bool | int | float | infinity | nan | seq | map | tagged => exact hrest

/-- The value of a name stands in an entry with that name. -/
theorem mem_of_lookup {name : String} {v : Yaml} (h : lookup name base = some v) :
    (.str name, v) ∈ base := by
  induction base with
  | nil => cases h
  | cons e base ih =>
    obtain ⟨key, w⟩ := e
    cases key with
    | str k =>
      rw [lookup_cons_str] at h
      split at h
      · next hk =>
        cases h
        rw [hk]
        exact List.mem_cons_self
      · exact List.mem_cons_of_mem _ (ih h)
    | null | bool | int | float | infinity | nan | seq | map | tagged =>
      exact List.mem_cons_of_mem _ (ih h)

/-- Lays a value over the entries of a key. -/
def layOver (base : List (Yaml × Yaml)) (key value : Yaml) : List (Yaml × Yaml) :=
  base.map fun e => if e.1 == key then (e.1, overlay e.2 value) else e

/-- Laying a value over entries keeps their keys. -/
theorem keys_layOver (base : List (Yaml × Yaml)) (key value : Yaml) :
    (layOver base key value).map Prod.fst = base.map Prod.fst := by
  rw [layOver, List.map_map]
  refine List.map_congr_left fun e _ => ?_
  rw [Function.comp_apply]
  split <;> rfl

/-- Laying a value over entries changes the value of its name. -/
theorem lookup_layOver (base : List (Yaml × Yaml)) (k name : String) (value : Yaml) :
    lookup name (layOver base (.str k) value) =
      if k = name then (lookup name base).map (overlay · value) else lookup name base := by
  induction base with
  | nil => exact (ite_self none).symm
  | cons e base ih =>
    obtain ⟨key, v⟩ := e
    unfold layOver at ih ⊢
    rw [List.map_cons]
    dsimp only
    by_cases hkey : key = .str k
    · subst hkey
      rw [if_pos (beq_str_iff.2 rfl), lookup_cons_str, lookup_cons_str, ih]
      by_cases hname : k = name <;> simp [hname]
    · rw [if_neg fun hsame => hkey (beq_str_iff.1 hsame)]
      cases key with
      | str j =>
        rw [lookup_cons_str, lookup_cons_str, ih]
        by_cases hj : j = name
        · subst hj
          have hne : k ≠ j := fun heq => hkey (congrArg Yaml.str heq.symm)
          simp [hne]
        · simp [hj]
      | null | bool | int | float | infinity | nan | seq | map | tagged => exact ih

/-! ### All entries -/

/-- Laying one entry more: it changes the entries of its key or goes to the end. -/
theorem overlayEntries_cons (base : List (Yaml × Yaml)) (key value : Yaml)
    (patch : List (Yaml × Yaml)) :
    overlay.overlayEntries base ((key, value) :: patch) =
      overlay.overlayEntries
        (if base.any (·.1 == key) then layOver base key value else base ++ [(key, value)]) patch :=
  rfl

/-- No entry is lost. -/
theorem length_le_overlayEntries (base patch : List (Yaml × Yaml)) :
    base.length ≤ (overlay.overlayEntries base patch).length := by
  induction patch generalizing base with
  | nil => exact Nat.le_refl _
  | cons e patch ih =>
    obtain ⟨key, value⟩ := e
    rw [overlayEntries_cons]
    refine Nat.le_trans ?_ (ih _)
    split
    · exact Nat.le_of_eq (List.length_map _).symm
    · rw [List.length_append]
      exact Nat.le_add_right _ _

/-- If nothing was appended, all names are those of the lower mapping. -/
theorem named_of_length_eq (hbase : base.map Prod.fst = names.map .str)
    (h : (overlay.overlayEntries base patch).length = base.length) : Named names patch := by
  induction patch generalizing base with
  | nil => exact fun e he => absurd he List.not_mem_nil
  | cons e patch ih =>
    obtain ⟨key, value⟩ := e
    rw [overlayEntries_cons] at h
    split at h
    · next hany =>
      have hkeys := keys_layOver base key value
      have hlength : (layOver base key value).length = base.length := List.length_map _
      have hrest := ih (hkeys.trans hbase) (h.trans hlength.symm)
      obtain ⟨e, he, hkey⟩ := List.any_eq_true.1 hany
      obtain ⟨name, hname, hstr⟩ := named_of_keys hbase e he
      rw [hstr] at hkey
      refine List.forall_mem_cons.2 ⟨⟨name, hname, str_beq_iff.1 hkey⟩, hrest⟩
    · have hle := length_le_overlayEntries (base ++ [(key, value)]) patch
      rw [h, List.length_append, List.length_singleton] at hle
      exact absurd hle (Nat.not_succ_le_self _)

/-- A name of the lower mapping is found in it. -/
theorem any_key_of_mem (hbase : base.map Prod.fst = names.map .str) {name : String}
    (hname : name ∈ names) : base.any (·.1 == .str name) = true := by
  have hkey : Yaml.str name ∈ base.map Prod.fst := hbase ▸ List.mem_map_of_mem hname
  obtain ⟨e, he, hkey⟩ := List.mem_map.1 hkey
  exact List.any_eq_true.2 ⟨e, he, beq_str_iff.2 hkey⟩

/-- A mapping that has names of the lower one only keeps the keys. -/
theorem keys_overlayEntries (hbase : base.map Prod.fst = names.map .str)
    (hpatch : Named names patch) :
    (overlay.overlayEntries base patch).map Prod.fst = names.map .str := by
  induction patch generalizing base with
  | nil => exact hbase
  | cons e patch ih =>
    obtain ⟨key, value⟩ := e
    obtain ⟨⟨name, hname, hkey⟩, hrest⟩ := List.forall_mem_cons.1 hpatch
    dsimp only at hkey
    subst hkey
    rw [overlayEntries_cons, if_pos (any_key_of_mem hbase hname)]
    exact ih ((keys_layOver _ _ _).trans hbase) hrest

/-- The value of a name is the lower value with what is laid over it. -/
theorem lookup_overlayEntries (hbase : base.map Prod.fst = names.map .str)
    (hpatch : Named names patch) (hdistinct : KeysDistinct patch) (name : String) :
    lookup name (overlay.overlayEntries base patch) = (lookup name base).map fun lower =>
      ((lookup name patch).map (overlay lower)).getD lower := by
  induction patch generalizing base with
  | nil => exact Option.map_id'.symm
  | cons e patch ih =>
    obtain ⟨key, value⟩ := e
    obtain ⟨⟨k, hk, hkey⟩, hrest⟩ := List.forall_mem_cons.1 hpatch
    obtain ⟨hfresh, hapart⟩ := List.pairwise_cons.1 hdistinct
    dsimp only at hkey
    subst hkey
    rw [overlayEntries_cons, if_pos (any_key_of_mem hbase hk),
      ih ((keys_layOver _ _ _).trans hbase) hrest hapart, lookup_layOver, lookup_cons_str]
    by_cases hname : k = name
    · subst hname
      have hnone : lookup k patch = none := by
        refine lookup_eq_none fun e he heq => ?_
        have hne := hfresh e he
        rw [heq, beq_str_iff.2 rfl] at hne
        cases hne
      rw [if_pos rfl, if_pos rfl, hnone, Option.map_map]
      rfl
    · rw [if_neg hname, if_neg hname]

/-- Only a mapping is merged; anything else gives way. -/
theorem overlay_of_not_map {lower : Yaml} (h : ∀ entries, lower ≠ .map entries) (v : Yaml) :
    lower.overlay v = v := by
  cases lower with
  | map entries => exact absurd rfl (h entries)
  | null | bool | int | float | infinity | nan | str | seq | tagged => cases v <;> rfl

/-! ### Removed keys -/

/-- Removing a key leaves the values of the others. -/
theorem lookup_remove {name key : String} (h : name ≠ key) (entries : List (Yaml × Yaml)) :
    lookup name (remove key entries) = lookup name entries := by
  induction entries with
  | nil => rfl
  | cons e entries ih =>
    obtain ⟨k, v⟩ := e
    unfold remove at ih ⊢
    cases k with
    | str k =>
      by_cases hk : k = key
      · rw [List.filter_cons_of_neg (by simpa using hk), ih, lookup_cons_str, if_neg]
        exact fun heq => h (heq.symm.trans hk)
      · rw [List.filter_cons_of_pos (by simpa using hk), lookup_cons_str, lookup_cons_str, ih]
    | null | bool | int | float | infinity | nan | seq | map | tagged => exact ih

/-- The entries that are left have other keys. -/
theorem mem_remove {key : String} {entries : List (Yaml × Yaml)} {e : Yaml × Yaml} :
    e ∈ remove key entries ↔ e ∈ entries ∧ e.1 ≠ .str key := by
  unfold remove
  rw [List.mem_filter]
  refine and_congr_right fun _ => ?_
  cases e.1 <;> simp

/-- Without a key, all names are among some exactly if with it they are among these and the key. -/
theorem named_remove {names : List String} {key : String} (h : key ∉ names)
    (entries : List (Yaml × Yaml)) :
    Named names (remove key entries) ↔ Named (key :: names) entries := by
  unfold Named
  refine ⟨fun hnamed e he => ?_, fun hnamed e he => ?_⟩
  · by_cases hkey : e.1 = .str key
    · exact ⟨key, List.mem_cons_self, hkey⟩
    · obtain ⟨name, hname, heq⟩ := hnamed e (mem_remove.2 ⟨he, hkey⟩)
      exact ⟨name, List.mem_cons_of_mem _ hname, heq⟩
  · obtain ⟨he, hkept⟩ := mem_remove.1 he
    obtain ⟨name, hname, heq⟩ := hnamed e he
    refine ⟨name, (List.mem_cons.1 hname).resolve_left ?_, heq⟩
    rintro rfl
    exact hkept heq

/-! ### Views -/

variable {v : Yaml}

/-- What is read as a text. -/
theorem str?_eq_some {text : String} : v.str? = some text ↔ v.untag = .str text := by
  unfold str?
  split
  · next h => simp [h]
  · next h =>
    refine ⟨fun hnone => (nomatch hnone), fun htext => absurd htext (h text)⟩

/-- What is read as a truth value. -/
theorem bool?_eq_some {b : Bool} : v.bool? = some b ↔ v.untag = .bool b := by
  unfold bool?
  split
  · next h => simp [h]
  · next h =>
    refine ⟨fun hnone => (nomatch hnone), fun hbool => absurd hbool (h b)⟩

/-- What is read as a number below a bound. -/
theorem natBelow?_eq_some {bound n : Nat} :
    v.natBelow? bound = some n ↔ v.untag = .int n ∧ n < bound := by
  unfold natBelow?
  split
  · next m h =>
    rw [h, Yaml.int.injEq, Int.ofNat_eq_natCast, Int.natCast_inj]
    split
    · next hlt =>
      rw [Option.some.injEq]
      exact ⟨fun heq => ⟨heq, heq ▸ hlt⟩, And.left⟩
    · next hge => exact ⟨fun hnone => (nomatch hnone), fun ⟨heq, hlt⟩ => absurd (heq ▸ hlt) hge⟩
  · next h => exact ⟨fun hnone => (nomatch hnone), fun hint => absurd hint.1 (h n)⟩

end Yaml

end DataRace
