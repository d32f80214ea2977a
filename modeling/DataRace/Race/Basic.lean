import DataRace.SharedMemory

/-!
# Races

A race is a pair of accesses of one object, the earlier named event first.  Its severity tells
whether memory is released, written twice, or read and written.
-/

namespace DataRace

/-- How bad a race is. -/
inductive Severity where
  | medium
  | high
  | critical
  deriving DecidableEq, Repr, Inhabited

namespace Severity

/-- The position of a severity, the worst last. -/
def rank : Severity → Nat
  | .medium => 0
  | .high => 1
  | .critical => 2

/-- The name of a severity. -/
def name : Severity → String
  | .medium => "Medium"
  | .high => "High"
  | .critical => "Critical"

/-- A free makes a race critical, two writes make it high. -/
def ofAccesses : AccessType → AccessType → Severity
  | .free, _ | _, .free => .critical
  | .write, .write => .high
  | _, _ => .medium

/-- The worse of two severities. -/
def worse (a b : Severity) : Severity := if a.rank ≤ b.rank then b else a

end Severity

/-- One side of a race. -/
structure RaceAccess where
  event : EventRef
  access : AccessType
  inst : InstId
  location : Option SourceLocation
  deriving DecidableEq, Repr, Inhabited

namespace RaceAccess

/-- One side of a race in a report. -/
def label (a : RaceAccess) : String :=
  a.access.verb ++ " at "
    ++ (match a.location with
      | some l => l.label
      | none => a.inst.label)
    ++ " (" ++ a.event.label ++ ")"

end RaceAccess

/-- Two accesses of one object that may happen at the same time. -/
structure Race where
  object : AccessedId
  abstractObject : ObjectId
  first : RaceAccess
  second : RaceAccess
  severity : Severity
  deriving DecidableEq, Repr, Inhabited

namespace Race

/-- The race of two accesses, ordered by their events. -/
def new (object : AccessedId) (abstractObject : ObjectId) (a b : RaceAccess) : Race :=
  let (first, second) := if a.event.ble b.event then (a, b) else (b, a)
  ⟨object, abstractObject, first, second, .ofAccesses first.access second.access⟩

/-- The instructions of a race, the smaller id first. -/
def instPair (r : Race) : InstId × InstId :=
  if r.first.inst.val ≤ r.second.inst.val then (r.first.inst, r.second.inst)
  else (r.second.inst, r.first.inst)

/-- Whether both sides write. -/
def isWriteWrite (r : Race) : Bool := r.first.access == .write && r.second.access == .write

/-- Whether one side releases the object. -/
def involvesFree (r : Race) : Bool := r.first.access == .free || r.second.access == .free

/-- A race in a report. -/
def label (r : Race) : String :=
  r.severity.name ++ " race on " ++ r.abstractObject.label ++ ": " ++ r.first.label ++ " / "
    ++ r.second.label

/-- Races are ordered by object, first event and second event. -/
def ble (a b : Race) : Bool :=
  decide (a.object < b.object)
    || (a.object == b.object
      && ((a.first.event != b.first.event && a.first.event.ble b.first.event)
        || (a.first.event == b.first.event && a.second.event.ble b.second.event)))

end Race

/-- How many races there are, by severity, and on how many objects. -/
structure RaceSummary where
  total : Nat
  critical : Nat
  high : Nat
  medium : Nat
  objects : Nat
  deriving DecidableEq, Repr

namespace RaceSummary

/-- The summary of a list of races. -/
def ofRaces (races : List Race) : RaceSummary where
  total := races.length
  critical := races.countP fun r => r.severity = .critical
  high := races.countP fun r => r.severity = .high
  medium := races.countP fun r => r.severity = .medium
  objects := (races.map Race.object).eraseDups.length

/-- The worst severity of a list of races. -/
def worst? (races : List Race) : Option Severity :=
  match races.map Race.severity with
  | [] => none
  | s :: ss => some (ss.foldl Severity.worse s)

end RaceSummary

end DataRace
