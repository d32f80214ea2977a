import DataRace.Yaml.Basic

/-!
# Laying one YAML value over another

`Yaml.overlay` replaces in a value what another value sets.  Mappings are merged entry by entry at
every level; anything else gives way as a whole.
-/

namespace DataRace

namespace Yaml

/-- A value with what another one sets.  Entries keep their places, and new ones go to the end. -/
def overlay : Yaml → Yaml → Yaml
  | .map base, .map patch => .map (overlayEntries base patch)
  | _, patch => patch
where
  /-- The entries of a mapping with those of another one laid over them. -/
  overlayEntries (base : List (Yaml × Yaml)) : List (Yaml × Yaml) → List (Yaml × Yaml)
    | [] => base
    | (key, value) :: rest =>
      let merged :=
        if base.any (·.1 == key) then
          base.map fun e => if e.1 == key then (e.1, overlay e.2 value) else e
        else base ++ [(key, value)]
      overlayEntries merged rest

end Yaml

end DataRace
