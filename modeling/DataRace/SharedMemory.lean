import DataRace.Trace.Basic

/-!
# Shared memory

Which threads access which objects, and how.  Objects are numbered in the order in which they are
first accessed.  For each object and each type of access there is a row of events for every thread
that makes such an access, threads ascending and events in the order of access.

An object is shared if accesses of different threads may conflict on it: two threads write or two
threads free it, or one thread writes or frees it while two read it, or two accesses of different
types, not both reads, come from one thread each and the threads differ.
-/

namespace DataRace

/-- The number of an accessed object. -/
abbrev AccessedId := Nat

/-- The written form of an accessed object: `o3`. -/
def accessedLabel (id : AccessedId) : String := "o" ++ toString id

/-- An access of an object by an event. -/
structure Access where
  object : ObjectId
  type : AccessType
  event : EventRef
  deriving DecidableEq, Repr

/-- The accesses of one object: for each type, the events of each thread. -/
structure AccessTable where
  reads : Rows EventRef
  writes : Rows EventRef
  frees : Rows EventRef
  deriving Repr, Inhabited

namespace AccessTable

/-- No accesses. -/
def empty : AccessTable := ⟨[], [], []⟩

/-- The rows of an access type. -/
def rows (t : AccessTable) : AccessType → Rows EventRef
  | .read => t.reads
  | .write => t.writes
  | .free => t.frees

/-- Adds an event to the row of its thread. -/
def add (t : AccessTable) (type : AccessType) (e : EventRef) : AccessTable :=
  match type with
  | .read => { t with reads := t.reads.modify e.thread (· ++ [e]) }
  | .write => { t with writes := t.writes.modify e.thread (· ++ [e]) }
  | .free => { t with frees := t.frees.modify e.thread (· ++ [e]) }

/-- Whether two tables of rows begin with different threads. -/
def apart (a b : Rows EventRef) : Bool := a.keys.head? != b.keys.head?

/-- Whether accesses of different threads may conflict. -/
def isShared (t : AccessTable) : Bool :=
  let r := t.reads.length
  let w := t.writes.length
  let f := t.frees.length
  if w ≥ 2 || f ≥ 2 then true
  else if (w == 1 || f == 1) && decide (r ≥ 2) then true
  else
    (w == 1 && r == 1 && apart t.writes t.reads)
      || (f == 1 && r == 1 && apart t.frees t.reads)
      || (f == 1 && w == 1 && apart t.frees t.writes)

end AccessTable

/-- The accesses of all objects. -/
structure SharedMemory where
  /-- The objects with their accesses, by number. -/
  objects : Array (ObjectId × AccessTable)
  /-- The number of each object. -/
  ids : Std.HashMap ObjectId AccessedId

namespace SharedMemory

/-- No accesses. -/
def empty : SharedMemory := ⟨#[], ∅⟩

/-- Adds an access; an object that is new gets the next number. -/
def add (m : SharedMemory) (a : Access) : SharedMemory :=
  match m.ids[a.object]? with
  | some id =>
    { m with objects := m.objects.modify id fun (o, table) => (o, table.add a.type a.event) }
  | none =>
    { objects := m.objects.push (a.object, AccessTable.empty.add a.type a.event)
      ids := m.ids.insert a.object m.objects.size }

/-- The accesses of a list. -/
def ofAccesses (accesses : List Access) : SharedMemory := accesses.foldl add empty

/-- The objects that a node accesses with a type of access. -/
def objectsOf (p : PointsTo) (n : Node) : AccessType → List ObjectId
  | .read | .write => (n.accessed?.map p.objects).getD []
  | .free => (n.freed?.map p.freedObjects).getD []

/-- The accesses that an event makes. -/
def accessesOf (t : Trace) (e : Event) : Except Fault (List Access) := do
  let n ← t.arena.get e.node
  match e.kind.access? with
  | some type => .ok ((objectsOf t.pointsTo n type).map fun o => ⟨o, type, e.ref⟩)
  | none => .ok []

/-- The accesses of a trace, event by event. -/
def ofTrace (t : Trace) : Except Fault SharedMemory := do
  let accesses ← t.events.mapM (accessesOf t)
  .ok (ofAccesses accesses.flatten)

/-- The number of accessed objects. -/
def objectCount (m : SharedMemory) : Nat := m.objects.size

/-- The object of a number. -/
def object? (m : SharedMemory) (id : AccessedId) : Option ObjectId :=
  (m.objects[id]?).map Prod.fst

/-- The number of an object. -/
def id? (m : SharedMemory) (o : ObjectId) : Option AccessedId := m.ids[o]?

/-- The accesses of an object, none for an unknown number. -/
def table (m : SharedMemory) (id : AccessedId) : AccessTable :=
  ((m.objects[id]?).map Prod.snd).getD .empty

/-- Whether an object is shared. -/
def isShared (m : SharedMemory) (id : AccessedId) : Bool := (m.table id).isShared

/-- The shared objects, ascending. -/
def shared (m : SharedMemory) : List AccessedId :=
  (List.range m.objectCount).filter m.isShared

end SharedMemory

end DataRace
