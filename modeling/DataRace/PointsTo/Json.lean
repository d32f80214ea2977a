import DataRace.Json.Printer
import DataRace.Json.Reader
import DataRace.PointsTo.Basic

/-!
# Points-to facts as JSON

`PointsTo.toJson` lists the object names and the rows of both tables, ascending by value.
`PointsTo.ofJson?` binds the rows in the order of the document, so that rows of one value add up.
Each record may also be an array in field order, and each table may be missing.
-/

namespace DataRace

namespace PointsTo

/-- The table as a record. -/
def toJson (t : PointsTo) : Json :=
  .obj
    [("objects", .arr (t.names.toList.map .str)),
      ("values", .arr (t.values.map fun (v, row) =>
        .obj [("value", .ofNat v), ("objects", .arr (row.map fun o => .ofNat o.val))])),
      ("functions", .arr (t.routines.map fun (v, row) =>
        .obj [("value", .ofNat v), ("targets", .arr (row.map .str))]))]

/-- The text of a table, indented. -/
def render (t : PointsTo) : String := t.toJson.pretty

/-- Reads a row: a value and the list of what belongs to it. -/
def row? {α : Type} (field : String) (item? : Json → Option α) (v : Json) :
    Option (ValueId × List α) := do
  match ← v.fields? ["value", field] with
  | [value, items] => some (⟨← (← value).nat32?⟩, ← (← (← items).arr?).mapM item?)
  | _ => none

/-- Reads a list that may be missing. -/
def list? {α : Type} (item? : Json → Option α) : Option Json → Option (List α)
  | none => some []
  | some v => do (← v.arr?).mapM item?

/-- A table with the given names and rows, bound in order. -/
def ofRows (names : List String) (values : List (ValueId × List ObjectId))
    (routines : List (ValueId × List String)) : PointsTo :=
  let named : PointsTo := { empty with names := names.toArray }
  let bound := values.foldl (fun t (v, objects) => t.bind v objects) named
  routines.foldl (fun t (v, targets) => targets.foldl (fun t name => t.bindRoutine v name) t) bound

/-- Reads a table. -/
def ofJson? (v : Json) : Option PointsTo := do
  match ← v.fields? ["objects", "values", "functions"] with
  | [names, values, routines] =>
    let names ← list? Json.str? names
    let values ← list? (row? "objects" fun o => (Json.nat64? o).map ObjectId.mk) values
    let routines ← list? (row? "targets" Json.str?) routines
    some (ofRows names values routines)
  | _ => none

/-- Reads a table from a text. -/
def parse? (text : String) : Option PointsTo := do ofJson? (← Json.read? text)

end PointsTo

end DataRace
