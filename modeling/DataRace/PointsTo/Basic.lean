import DataRace.Program.Basic
import DataRace.Rows

/-!
# Points-to facts

A table of what pointers may point to: objects for values, routines for routine pointers.  Objects
are numbered as they are named.  Two operands may alias if they may denote a common object, and
must alias if they certainly denote one and the same; a null pointer aliases nothing.
-/

namespace DataRace

/-- An object in memory, as a points-to analysis sees it. -/
structure ObjectId where
  val : Nat
  deriving DecidableEq, Hashable, Repr, Inhabited

namespace ObjectId

/-- The short form of an object: `obj#3`. -/
def label (o : ObjectId) : String := "obj#" ++ toString o.val

end ObjectId

/-- A table of points-to facts. -/
structure PointsTo where
  /-- The names of the numbered objects. -/
  names : Array String
  /-- The objects of each value. -/
  values : Rows ObjectId
  /-- The routines of each routine pointer. -/
  routines : Rows String

namespace PointsTo

/-- No facts. -/
def empty : PointsTo := ⟨#[], [], []⟩

/-- Names a new object. -/
def nameObject (t : PointsTo) (name : String) : ObjectId × PointsTo :=
  (⟨t.names.size⟩, { t with names := t.names.push name })

/-- Adds objects that a value may point to.  The value has a row from then on, even if it is
empty. -/
def bind (t : PointsTo) (v : ValueId) (objects : List ObjectId) : PointsTo :=
  { t with values := t.values.modify v.val fun row => objects.foldl Rows.addNew row }

/-- Adds a routine that a routine pointer may target. -/
def bindRoutine (t : PointsTo) (v : ValueId) (name : String) : PointsTo :=
  { t with routines := t.routines.modify v.val fun row => Rows.addNew row name }

/-- The objects that a value may point to, in the order of binding. -/
def objects (t : PointsTo) (v : ValueId) : List ObjectId := t.values.row v.val

/-- The objects that are released when a value is freed. -/
def freedObjects (t : PointsTo) (v : ValueId) : List ObjectId := t.objects v

/-- The routines that a routine pointer may target, in the order of binding. -/
def targets (t : PointsTo) (v : ValueId) : List String := t.routines.row v.val

/-- The name of an object. -/
def describe (t : PointsTo) (o : ObjectId) : Option String := t.names[o.val]?

/-- Whether two values may point to a common object. -/
def mayAlias (t : PointsTo) (a b : ValueId) : Bool :=
  a == b || (t.objects a).any fun o => (t.objects b).contains o

/-- Whether two values certainly denote one object: they are equal, or both point to exactly that
object. -/
def mustAlias (t : PointsTo) (a b : ValueId) : Bool :=
  a == b ||
    match t.objects a, t.objects b with
    | [x], [y] => x == y
    | _, _ => false

/-- Whether two thread handles may denote one thread. -/
def operandsMayAlias (t : PointsTo) : Operand → Operand → Bool
  | .value a, .value b => t.mayAlias a b
  | .routine a, .routine b => a == b
  | .result a, .result b => a == b
  | _, _ => false

/-- Whether two lock operands certainly denote one lock. -/
def operandsMustAlias (t : PointsTo) : Operand → Operand → Bool
  | .value a, .value b => t.mustAlias a b
  | .routine a, .routine b => a == b
  | .result a, .result b => a == b
  | .const a, .const b => a == b
  | _, _ => false

end PointsTo

end DataRace
