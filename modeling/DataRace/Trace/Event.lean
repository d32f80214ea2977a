import DataRace.Node.Basic

/-!
# Events

An event is one occurrence of a node in a thread.  Threads are numbered, and the events of a thread
are numbered from zero; an `EventRef` names an event by both numbers.
-/

namespace DataRace

/-- A thread. -/
abbrev ThreadId := Nat

/-- The name of an event. -/
structure EventRef where
  thread : ThreadId
  index : Nat
  deriving DecidableEq, Hashable, Repr, Inhabited

namespace EventRef

/-- The written form of an event: `t1:e0`. -/
def label (r : EventRef) : String := "t" ++ toString r.thread ++ ":e" ++ toString r.index

/-- Events are ordered by thread, then by number. -/
def ble (a b : EventRef) : Bool :=
  decide (a.thread < b.thread) || (a.thread == b.thread && decide (a.index ≤ b.index))

end EventRef

/-- How an event accesses memory. -/
inductive AccessType where
  | read
  | write
  | free
  deriving DecidableEq, Repr, Inhabited

namespace AccessType

/-- The position of a type: reads come first, frees last. -/
def rank : AccessType → Nat
  | .read => 0
  | .write => 1
  | .free => 2

/-- The name of an access type. -/
def name : AccessType → String
  | .read => "Read"
  | .write => "Write"
  | .free => "Free"

/-- The access type of a name. -/
def ofName? : String → Option AccessType
  | "Read" => some .read
  | "Write" => some .write
  | "Free" => some .free
  | _ => none

/-- The access type in a report. -/
def verb : AccessType → String
  | .read => "read"
  | .write => "write"
  | .free => "free"

/-- Whether an access changes or releases memory. -/
def isWrite : AccessType → Bool
  | .read => false
  | .write | .free => true

/-- Two accesses conflict unless both only read. -/
def conflicts (a b : AccessType) : Bool := a.isWrite || b.isWrite

end AccessType

/-- What happens in an event. -/
inductive EventKind where
  | read
  | write
  | free
  | fork (child : ThreadId)
  /-- A join, of no thread if it could not be resolved. -/
  | join (child : Option ThreadId)
  | lock
  | unlock
  | barrier
  | call
  | return
  deriving DecidableEq, Repr, Inhabited

namespace EventKind

/-- The type of access that an event makes. -/
def access? : EventKind → Option AccessType
  | .read => some .read
  | .write => some .write
  | .free => some .free
  | _ => none

/-- Whether an event may order events of several threads. -/
def isSync : EventKind → Bool
  | .fork _ | .join _ | .barrier => true
  | _ => false

/-- Whether an event changes the locks that are held. -/
def isLocking : EventKind → Bool
  | .lock | .unlock => true
  | _ => false

end EventKind

/-- An event of a thread. -/
structure Event where
  thread : ThreadId
  index : Nat
  node : NodeId
  kind : EventKind
  deriving DecidableEq, Repr, Inhabited

namespace Event

/-- The name of an event. -/
def ref (e : Event) : EventRef := ⟨e.thread, e.index⟩

end Event

end DataRace
