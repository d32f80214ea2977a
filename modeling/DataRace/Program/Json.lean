import DataRace.Json.Printer
import DataRace.Json.Reader
import DataRace.Program.Basic

/-!
# Programs as JSON

`Program.toJson` writes a program, `Program.ofJson` reads one from a JSON value and
`Program.parse` from a text.  Every record but the instruction may also be written as an array in
field order, and unknown members are skipped.  An instruction names what it does in its member
`op`; only the members of that operation are looked at, but all have to be readable.
-/

namespace DataRace

namespace SourceLocation

/-- A place as a record. -/
def toJson (l : SourceLocation) : Json :=
  .obj [("file", .str l.file), ("line", .ofNat l.line), ("column", .ofNat l.column)]

/-- Reads a place. -/
def ofJson? (v : Json) : Option SourceLocation := do
  match ← v.fields? ["file", "line", "column"] with
  | [file, line, column] =>
    some ⟨← (← file).str?, ← (← line).nat32?, ← (← column).nat32?⟩
  | _ => none

end SourceLocation

namespace Operand

/-- An operand as its only member, or the word `null`. -/
def toJson : Operand → Json
  | .value v => .obj [("value", .ofNat v.val)]
  | .routine name => .obj [("function", .str name)]
  | .result i => .obj [("result", .ofNat i.val)]
  | .const c => .obj [("const", .int c)]
  | .null => .str "null"

/-- Reads an operand.  The null pointer may also be a member without content. -/
def ofJson? : Json → Option Operand
  | .str "null" => some .null
  | .obj [("null", .null)] => some .null
  | .obj [("null", .obj [])] => some .null
  | .obj [("value", v)] => v.nat32?.map fun n => .value ⟨n⟩
  | .obj [("function", v)] => v.str?.map .routine
  | .obj [("result", v)] => v.nat32?.map fun n => .result ⟨n⟩
  | .obj [("const", v)] => v.int64?.map .const
  | _ => none

end Operand

namespace Callee

/-- A callee as its only member. -/
def toJson : Callee → Json
  | .direct name => .obj [("direct", .str name)]
  | .indirect v => .obj [("indirect", .ofNat v.val)]

/-- Reads a callee. -/
def ofJson? : Json → Option Callee
  | .obj [("direct", v)] => v.str?.map .direct
  | .obj [("indirect", v)] => v.nat32?.map fun n => .indirect ⟨n⟩
  | _ => none

end Callee

namespace Action

/-- The members that describe an action. -/
def toMembers : Action → List (String × Json)
  | .load ptr v => [("op", .str "load"), ("ptr", .ofNat ptr.val), ("volatile", .bool v)]
  | .store ptr v => [("op", .str "store"), ("ptr", .ofNat ptr.val), ("volatile", .bool v)]
  | .call callee args =>
    [("op", .str "call"), ("callee", callee.toJson), ("args", .arr (args.map Operand.toJson))]
  | .other => [("op", .str "other")]

/-- The operations in their order. -/
def operations : List String := ["load", "store", "call", "other"]

/-- The name of an operation, given by name or by its position. -/
def operation? : Json → Option String
  | .str s => if s ∈ operations then some s else none
  | .int (.ofNat n) => operations[n]?
  | _ => none

/-- Reads a pointer and whether the access is volatile, which it is not by default. -/
def access? (members : List (String × Json)) : Option (ValueId × Bool) := do
  let ptr ← (← (← Json.atMostOnce? "ptr" members)).nat32?
  match ← Json.atMostOnce? "volatile" members with
  | none => some (⟨ptr⟩, false)
  | some v => some (⟨ptr⟩, ← v.bool?)

/-- Reads an action from the members of an instruction. -/
def ofMembers? (members : List (String × Json)) : Option Action := do
  match ← operation? (← (← Json.atMostOnce? "op" members)) with
  | "load" => (access? members).map fun (ptr, v) => .load ptr v
  | "store" => (access? members).map fun (ptr, v) => .store ptr v
  | "call" =>
    let callee ← Callee.ofJson? (← (← Json.atMostOnce? "callee" members))
    match ← Json.atMostOnce? "args" members with
    | none => some (.call callee [])
    | some v => (← v.arr?).mapM Operand.ofJson? |>.map (.call callee)
  | _ => some .other

end Action

namespace Instruction

/-- An instruction as a record; a missing place is left out. -/
def toJson (i : Instruction) : Json :=
  .obj (("id", .ofNat i.id.val) :: i.action.toMembers ++
    (match i.location with
    | none => []
    | some l => [("location", l.toJson)]))

/-- How deep in the text of a program an instruction stands: program, routines, routine, body and
the instruction itself. -/
def level : Nat := 5

/-- Reads an instruction. -/
def ofJson? : Json → Option Instruction
  | .obj members => do
    let id ← (← (← Json.atMostOnce? "id" members)).nat32?
    let place ←
      match ← Json.atMostOnce? "location" members with
      | none => some none
      | some .null => some none
      | some v => (SourceLocation.ofJson? v).map some
    let others := members.filter fun m => m.1 ≠ "id" && m.1 ≠ "location"
    if others.all fun m => m.2.isReadable level then
      (Action.ofMembers? others).map fun action => ⟨⟨id⟩, action, place⟩
    else none
  | _ => none

end Instruction

namespace Routine

/-- A routine as a record. -/
def toJson (r : Routine) : Json :=
  .obj [("name", .str r.name), ("body", .arr (r.body.map Instruction.toJson))]

/-- Reads a routine; a missing body is empty. -/
def ofJson? (v : Json) : Option Routine := do
  match ← v.fields? ["name", "body"] with
  | [name, none] => some ⟨← (← name).str?, []⟩
  | [name, some body] => some ⟨← (← name).str?, ← (← body.arr?).mapM Instruction.ofJson?⟩
  | _ => none

end Routine

namespace Program

/-- Why a program could not be read. -/
inductive LoadError where
  /-- The text is no JSON, or no program in its structure. -/
  | malformed
  | duplicate (d : Duplicate)
  deriving DecidableEq, Repr

/-- The wording of a load error, where it has a fixed one. -/
def LoadError.message? : LoadError → Option String
  | .malformed => none
  | .duplicate d => some ("JSON error: " ++ d.message)

/-- A program as a record. -/
def toJson (p : Program) : Json :=
  .obj [("name", .str p.name), ("functions", .arr (p.routines.map Routine.toJson))]

/-- Reads the name and the routines of a program; missing routines are none. -/
def parts? (v : Json) : Option (String × List Routine) := do
  match ← v.fields? ["name", "functions"] with
  | [name, none] => some (← (← name).str?, [])
  | [name, some routines] =>
    some (← (← name).str?, ← (← routines.arr?).mapM Routine.ofJson?)
  | _ => none

/-- Reads a program. -/
def ofJson (v : Json) : Except LoadError Program :=
  match parts? v with
  | none => .error .malformed
  | some (name, routines) =>
    match ofRoutines name routines with
    | .error d => .error (.duplicate d)
    | .ok p => .ok p

/-- Reads a program from a text.  What follows the program is looked at last. -/
def parse (text : String) : Except LoadError Program :=
  match Json.readFirst? text.toList with
  | none => .error .malformed
  | some (v, rest) =>
    match ofJson v with
    | .error e => .error e
    | .ok p => if Json.isFinished rest then .ok p else .error .malformed

end Program

end DataRace
