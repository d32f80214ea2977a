import DataRace.Text.Numeral

/-!
# YAML values

`Yaml` is the value of a YAML node.  Mappings keep their entries in order; a mapping that is read
never repeats a key.  A tag that is not one of the core schema stays with its value.
-/

namespace DataRace

/-- The value of a YAML node. -/
inductive Yaml where
  | null
  | bool (value : Bool)
  | int (value : Int)
  /-- A finite number that is no integer literal, without trailing zeros in its mantissa. -/
  | float (value : Decimal)
  | infinity (negative : Bool)
  | nan
  | str (text : String)
  | seq (items : List Yaml)
  | map (entries : List (Yaml × Yaml))
  | tagged (tag : String) (value : Yaml)
  deriving Inhabited, Repr

namespace Yaml

/-- The value below its tag. -/
def untag : Yaml → Yaml
  | .tagged _ v => untag v
  | v => v

/-- Whether two values are the same.  The order of the entries of a mapping does not count. -/
def isSame : Yaml → Yaml → Bool
  | .null, .null => true
  | .bool a, .bool b => a == b
  | .int a, .int b => a == b
  | .float a, .float b => a == b
  | .infinity a, .infinity b => a == b
  | .nan, .nan => true
  | .str a, .str b => a == b
  | .seq xs, .seq ys => sameItems xs ys
  | .map xs, .map ys => xs.length == ys.length && sameEntries xs ys
  | .tagged t a, .tagged u b => t == u && isSame a b
  | _, _ => false
where
  /-- Whether two lists hold the same values in the same order. -/
  sameItems : List Yaml → List Yaml → Bool
    | [], [] => true
    | x :: xs, y :: ys => isSame x y && sameItems xs ys
    | _, _ => false
  /-- Whether each entry of the first list is in the second. -/
  sameEntries : List (Yaml × Yaml) → List (Yaml × Yaml) → Bool
    | [], _ => true
    | (k, v) :: xs, ys =>
      ys.any (fun e => isSame k e.1 && isSame v e.2) && sameEntries xs ys

instance : BEq Yaml := ⟨isSame⟩

/-- The value of a key. -/
def lookup (key : String) : List (Yaml × Yaml) → Option Yaml
  | [] => none
  | (.str k, v) :: rest => if k = key then some v else lookup key rest
  | _ :: rest => lookup key rest

/-- The entries without a key. -/
def remove (key : String) (entries : List (Yaml × Yaml)) : List (Yaml × Yaml) :=
  entries.filter fun e =>
    match e.1 with
    | .str k => k ≠ key
    | _ => true

/-- The natural number below a bound, whatever its tag. -/
def natBelow? (bound : Nat) (v : Yaml) : Option Nat :=
  match v.untag with
  | .int (.ofNat n) => if n < bound then some n else none
  | _ => none

/-- The text, whatever its tag. -/
def str? (v : Yaml) : Option String :=
  match v.untag with
  | .str s => some s
  | _ => none

/-- The truth value, whatever its tag. -/
def bool? (v : Yaml) : Option Bool :=
  match v.untag with
  | .bool b => some b
  | _ => none

/-- The entries of a mapping, whatever its tag; null stands for an empty mapping. -/
def entries? (v : Yaml) : Option (List (Yaml × Yaml)) :=
  match v.untag with
  | .map entries => some entries
  | .null => some []
  | _ => none

end Yaml

end DataRace
