import DataRace.LockSets
import DataRace.Order.HappensBefore
import DataRace.Race.Basic
import DataRace.Trace.Build

/-!
# Finding races

`Detector.racesOn` lists every pair of accesses of one object that race: they come from different
threads, conflict, are not ordered, and no lock protects both.  `Detector.detect` looks at all
shared objects and keeps, for each pair of instructions, the race that comes first by object and
events.  `analyze` does everything from the settings on.
-/

namespace DataRace

/-- A trace with all that is known of it. -/
structure Detector where
  trace : Trace
  memory : SharedMemory
  order : HappensBefore
  locks : LockSets

namespace Detector

/-- An access in the order of events, then of access types. -/
def accessBle (a b : EventRef × AccessType) : Bool :=
  (a.1 != b.1 && a.1.ble b.1) || (a.1 == b.1 && decide (a.2.rank ≤ b.2.rank))

/-- The accesses of an object, in order. -/
def accesses (d : Detector) (id : AccessedId) : List (EventRef × AccessType) :=
  let table := d.memory.table id
  let all := [AccessType.read, .write, .free].flatMap fun type =>
    (table.rows type).flatMap fun (_, events) => events.map (·, type)
  all.mergeSort accessBle

/-- Whether two accesses of one object race. -/
def isRacing (d : Detector) (a b : EventRef × AccessType) : Bool :=
  a.1.thread != b.1.thread && a.2.conflicts b.2 && d.order.concurrent a.1 b.1
    && !d.locks.sharesLock d.trace a.1 b.1

/-- One side of a race. -/
def side (d : Detector) (a : EventRef × AccessType) : Except Fault RaceAccess :=
  match d.trace.event? a.1 with
  | none => .error (.unknownEvent a.1.thread a.1.index)
  | some e => do
    let n ← d.trace.arena.get e.node
    .ok ⟨a.1, a.2, n.inst, n.site.location⟩

/-- The races of an access with later ones. -/
def racesWith (d : Detector) (id : AccessedId) (o : ObjectId) (a : EventRef × AccessType) :
    List (EventRef × AccessType) → Except Fault (List Race)
  | [] => .ok []
  | b :: bs =>
    if d.isRacing a b then do
      let race := Race.new id o (← d.side a) (← d.side b)
      return race :: (← d.racesWith id o a bs)
    else d.racesWith id o a bs

/-- The races among accesses. -/
def racesAmong (d : Detector) (id : AccessedId) (o : ObjectId) :
    List (EventRef × AccessType) → Except Fault (List Race)
  | [] => .ok []
  | a :: as => do return (← d.racesWith id o a as) ++ (← d.racesAmong id o as)

/-- The races on an object; an unknown number has none. -/
def racesOn (d : Detector) (id : AccessedId) : Except Fault (List Race) :=
  match d.memory.object? id with
  | none => .ok []
  | some o => d.racesAmong id o (d.accesses id)

/-- Keeps the first race of each pair of instructions, given the pairs met before. -/
def keepFirst (seen : List (InstId × InstId)) : List Race → List Race
  | [] => []
  | r :: rs =>
    if r.instPair ∈ seen then keepFirst seen rs else r :: keepFirst (r.instPair :: seen) rs

/-- The races of all shared objects, one for each pair of instructions. -/
def detect (d : Detector) : Except Fault (List Race) := do
  let races ← d.memory.shared.mapM d.racesOn
  .ok (keepFirst [] (races.flatten.mergeSort Race.ble))

/-- All that is known of a trace. -/
def ofTrace (t : Trace) : Except Fault Detector := do
  let memory ← SharedMemory.ofTrace t
  let order ← HappensBefore.ofTrace t
  .ok ⟨t, memory, order, LockSets.ofTrace t⟩

end Detector

namespace Trace

/-- The races of a trace.  Without shared objects there are none, and nothing else is looked at. -/
def races (t : Trace) : Except Fault (List Race) := do
  let memory ← SharedMemory.ofTrace t
  if memory.shared.isEmpty then .ok []
  else
    let order ← HappensBefore.ofTrace t
    (⟨t, memory, order, LockSets.ofTrace t⟩ : Detector).detect

end Trace

/-- Why there is no analysis. -/
inductive AnalysisError where
  | settings (e : SettingsError)
  | build (e : BuildError)
  deriving DecidableEq, Repr

/-- The wording of an analysis error, where it has one. -/
def AnalysisError.message? : AnalysisError → Option String
  | .settings e => e.message?.map ("Configuration error: " ++ ·)
  | .build (.fault f) => f.message?
  | .build e => e.message?.map ("Trace error: " ++ ·)

/-- The races of a program: checks the settings, builds the trace and looks for races. -/
def analyze (p : Program) (pointsTo : PointsTo) (s : Settings) :
    Except AnalysisError (List Race) :=
  match s.validate with
  | .error e => .error (.settings e)
  | .ok () =>
    match Trace.build ⟨p, pointsTo, s, Interface.standard⟩ with
    | .error e => .error (.build e)
    | .ok t =>
      match t.races with
      | .error f => .error (.build (.fault f))
      | .ok races => .ok races

end DataRace
