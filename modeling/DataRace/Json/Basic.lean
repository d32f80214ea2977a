import DataRace.Text.Numeral

/-!
# JSON values

`Json` is the tree of a JSON text.  Objects keep their members in order and with repetitions.
Integers are exact; every other number is a `Decimal`.  A string literal that names half of a
surrogate pair denotes no text: it is kept as `lone`, as is an object with such a key, so that a
reader can skip what nobody asks for.

The second half holds the views of a value that records are read by: bounded integers, and the
members of a record written either as an object or as an array in field order.
-/

namespace DataRace

/-- The tree of a JSON text. -/
inductive Json where
  | null
  | bool (value : Bool)
  | int (value : Int)
  /-- A number with a fraction or an exponent, or a negative zero. -/
  | real (value : Decimal)
  | str (text : String)
  | arr (items : List Json)
  | obj (members : List (String × Json))
  /-- Well-formed text without a value: half of a surrogate pair was named. -/
  | lone
  deriving Inhabited, Repr

namespace Json

/-- A natural number as a value. -/
def ofNat (n : Nat) : Json := .int n

/-- The number of objects and arrays on the deepest path. -/
def depth : Json → Nat
  | .arr items => depthItems items + 1
  | .obj members => depthMembers members + 1
  | _ => 0
where
  /-- The greatest depth of a list of values. -/
  depthItems : List Json → Nat
    | [] => 0
    | v :: vs => max (depth v) (depthItems vs)
  /-- The greatest depth of a list of members. -/
  depthMembers : List (String × Json) → Nat
    | [] => 0
    | (_, v) :: vs => max (depth v) (depthMembers vs)

/-- Whether every string of a value denotes a text and every number is in range. -/
def isSound : Json → Bool
  | .arr items => soundItems items
  | .obj members => soundMembers members
  | .lone => false
  | .real d => d.isFinite
  | .int i => (Decimal.ofInt i).isFinite
  | _ => true
where
  /-- Every value of a list is sound. -/
  soundItems : List Json → Bool
    | [] => true
    | v :: vs => isSound v && soundItems vs
  /-- Every member of a list is sound. -/
  soundMembers : List (String × Json) → Bool
    | [] => true
    | (_, v) :: vs => isSound v && soundMembers vs

/-- Objects and arrays that are read as a whole may be nested this deep, counted from the start of
the text. -/
def nestingLimit : Nat := 127

/-- Whether a value `level` containers deep in a text can be read as a whole. -/
def isReadable (level : Nat) (v : Json) : Bool :=
  v.isSound && decide (level + v.depth ≤ nestingLimit)

/-! ### Views -/

/-- The natural number below a bound. -/
def natBelow? (bound : Nat) : Json → Option Nat
  | .int (.ofNat n) => if n < bound then some n else none
  | _ => none

/-- The natural number of 32 bits. -/
def nat32? : Json → Option Nat := natBelow? (Nat.pow 2 32)

/-- The natural number of 64 bits. -/
def nat64? : Json → Option Nat := natBelow? (Nat.pow 2 64)

/-- The signed integer of 64 bits. -/
def int64? : Json → Option Int
  | .int i => if -(Int.pow 2 63) ≤ i ∧ i < Int.pow 2 63 then some i else none
  | _ => none

/-- The text of a string. -/
def str? : Json → Option String
  | .str s => some s
  | _ => none

/-- The truth value. -/
def bool? : Json → Option Bool
  | .bool b => some b
  | _ => none

/-- The elements of an array. -/
def arr? : Json → Option (List Json)
  | .arr items => some items
  | _ => none

/-- Every value of a key, in order. -/
def occurrences (key : String) (members : List (String × Json)) : List Json :=
  members.filterMap fun m => if m.1 = key then some m.2 else none

/-- The value of a key that may be missing but not repeated: `none` for a repeated key, `some none`
for a missing one. -/
def atMostOnce? (key : String) (members : List (String × Json)) : Option (Option Json) :=
  match occurrences key members with
  | [] => some none
  | [v] => some (some v)
  | _ => none

/-- The fields of a record, one entry per name and `none` where the field is missing.  A record is
an object, with unknown members skipped and known ones at most once, or an array in field order,
which may leave out fields at its end. -/
def fields? (names : List String) : Json → Option (List (Option Json))
  | .obj members => names.mapM fun name => atMostOnce? name members
  | .arr items =>
    if items.length ≤ names.length then
      some (items.map some ++ List.replicate (names.length - items.length) none)
    else none
  | _ => none

/-- The value of the last member with the key. -/
def get? (key : String) : Json → Option Json
  | .obj members => (occurrences key members).getLast?
  | _ => none

end Json

end DataRace
