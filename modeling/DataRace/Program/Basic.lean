import Std.Data.HashMap
import Std.Data.HashSet

/-!
# Programs

A program is a named list of routines; a routine is a list of instructions, and one without
instructions is a declaration.  Instructions load, store, call, or do something that no analysis
looks at.

`Program.index` builds a program with its two indexes, by routine name and by instruction id.
`Program.ofRoutines` builds one only if no name and no id is used twice, and otherwise answers the
first repetition met when routines are read in order, each name before its body.
-/

namespace DataRace

/-! ### Names of things -/

/-- A pointer-valued entity of the program. -/
structure ValueId where
  val : Nat
  deriving DecidableEq, Hashable, Repr, Inhabited

/-- An instruction. -/
structure InstId where
  val : Nat
  deriving DecidableEq, Hashable, Repr, Inhabited

namespace ValueId

/-- The short form of a value: `%3`. -/
def label (v : ValueId) : String := "%" ++ toString v.val

end ValueId

namespace InstId

/-- The short form of an instruction: `#3`. -/
def label (i : InstId) : String := "#" ++ toString i.val

end InstId

/-- A place in a source file. -/
structure SourceLocation where
  file : String
  line : Nat
  column : Nat
  deriving DecidableEq, Repr, Inhabited

namespace SourceLocation

/-- The written form of a place: `a.c:3:14`. -/
def label (l : SourceLocation) : String :=
  l.file ++ ":" ++ toString l.line ++ ":" ++ toString l.column

/-- Places are ordered by file, then line, then column; files by their characters. -/
def compare (a b : SourceLocation) : Ordering :=
  (Ord.compare a.file b.file).then
    ((Ord.compare a.line b.line).then (Ord.compare a.column b.column))

/-- Whether two places are in one file. -/
def sameFile (a b : SourceLocation) : Bool := a.file == b.file

end SourceLocation

/-! ### Instructions -/

/-- An argument of a call. -/
inductive Operand where
  /-- A pointer. -/
  | value (v : ValueId)
  /-- The address of a routine. -/
  | routine (name : String)
  /-- The result of another call. -/
  | result (i : InstId)
  /-- An integer constant. -/
  | const (c : Int)
  /-- The null pointer. -/
  | null
  deriving DecidableEq, Hashable, Repr, Inhabited

namespace Operand

/-- The pointer that an operand is. -/
def value? : Operand → Option ValueId
  | .value v => some v
  | _ => none

/-- The routine whose address an operand is. -/
def routine? : Operand → Option String
  | .routine name => some name
  | _ => none

/-- The call whose result an operand is. -/
def result? : Operand → Option InstId
  | .result i => some i
  | _ => none

end Operand

/-- What a call calls. -/
inductive Callee where
  | direct (name : String)
  /-- A routine pointer, resolved through points-to facts. -/
  | indirect (v : ValueId)
  deriving DecidableEq, Repr, Inhabited

namespace Callee

/-- The name of a direct callee. -/
def name? : Callee → Option String
  | .direct name => some name
  | .indirect _ => none

end Callee

/-- What an instruction does. -/
inductive Action where
  | load (ptr : ValueId) (isVolatile : Bool)
  | store (ptr : ValueId) (isVolatile : Bool)
  | call (callee : Callee) (args : List Operand)
  | other
  deriving DecidableEq, Repr, Inhabited

/-- An instruction of a routine. -/
structure Instruction where
  id : InstId
  action : Action
  location : Option SourceLocation
  deriving DecidableEq, Repr, Inhabited

namespace Instruction

/-- Whether an instruction is a call. -/
def isCall (i : Instruction) : Bool :=
  match i.action with
  | .call _ _ => true
  | _ => false

/-- The name of the callee of a direct call. -/
def calleeName? (i : Instruction) : Option String :=
  match i.action with
  | .call callee _ => callee.name?
  | _ => none

/-- The arguments of a call; other instructions have none. -/
def args (i : Instruction) : List Operand :=
  match i.action with
  | .call _ args => args
  | _ => []

end Instruction

/-! ### Routines and programs -/

/-- A routine of a program. -/
structure Routine where
  name : String
  body : List Instruction
  deriving DecidableEq, Repr, Inhabited

namespace Routine

/-- Whether a routine has no body. -/
def isDeclaration (r : Routine) : Bool := r.body.isEmpty

end Routine

/-- A program with its indexes. -/
structure Program where
  name : String
  routines : List Routine
  byName : Std.HashMap String Routine
  byId : Std.HashMap InstId Instruction

namespace Program

/-- A repetition that makes a list of routines no program. -/
inductive Duplicate where
  | routine (name : String)
  | instruction (id : InstId)
  deriving DecidableEq, Repr

/-- The wording of a repetition. -/
def Duplicate.message : Duplicate → String
  | .routine name => "Duplicate function '" ++ name ++ "' in module"
  | .instruction id => "Duplicate instruction id " ++ id.label ++ " in module"

/-- A program whose indexes are filled from its routines in order. -/
def index (name : String) (routines : List Routine) : Program where
  name := name
  routines := routines
  byName := routines.foldl (fun m r => m.insert r.name r) ∅
  byId := routines.foldl (fun m r => r.body.foldl (fun m i => m.insert i.id i) m) ∅

/-- The ids of a body added to those met before, or the first repeated one. -/
def addIds (ids : Std.HashSet InstId) : List Instruction → Except Duplicate (Std.HashSet InstId)
  | [] => .ok ids
  | i :: is => if i.id ∈ ids then .error (.instruction i.id) else addIds (ids.insert i.id) is

/-- Checks routines against the names and ids met before. -/
def checkFrom (names : Std.HashSet String) (ids : Std.HashSet InstId) :
    List Routine → Except Duplicate Unit
  | [] => .ok ()
  | r :: rs =>
    if r.name ∈ names then .error (.routine r.name)
    else
      match addIds ids r.body with
      | .error d => .error d
      | .ok ids => checkFrom (names.insert r.name) ids rs

/-- The program of a list of routines, or its first repetition. -/
def ofRoutines (name : String) (routines : List Routine) : Except Duplicate Program :=
  match checkFrom ∅ ∅ routines with
  | .error d => .error d
  | .ok () => .ok (index name routines)

/-- The routine of a name, declared or defined. -/
def routine? (p : Program) (name : String) : Option Routine := p.byName[name]?

/-- The routine of a name if it has a body. -/
def definition? (p : Program) (name : String) : Option Routine :=
  (p.routine? name).filter fun r => !r.isDeclaration

/-- The instruction of an id. -/
def instruction? (p : Program) (id : InstId) : Option Instruction := p.byId[id]?

/-- The number of instructions. -/
def instructionCount (p : Program) : Nat := p.byId.size

/-- The names called directly, in order and with repetitions. -/
def directCallees (p : Program) : List String :=
  p.routines.flatMap fun r => r.body.filterMap Instruction.calleeName?

end Program

end DataRace
