import DataRace.Trace.Basic

/-!
# Lock sets

The locks that a thread holds at each of its events, as lock nodes in the order in which they were
acquired.  An unlock releases the latest held lock that must be the unlocked one; an unlock without
such a lock does nothing.
-/

namespace DataRace

/-- The locks held at each event of each thread. -/
structure LockSets where
  held : Array (Array (List NodeId))
  deriving Repr, Inhabited

namespace LockSets

/-- Whether two lock nodes certainly use one lock. -/
def sameLock (t : Trace) (a b : Option Operand) : Bool :=
  match a, b with
  | some x, some y => t.pointsTo.operandsMustAlias x y
  | _, _ => false

/-- The lock operand of a node. -/
def lockOf (t : Trace) (id : NodeId) : Option Operand := t.arena.get? id >>= Node.lock?

/-- Removes the last member that passes a test. -/
def eraseLast {α : Type} (p : α → Bool) (l : List α) : List α := (l.reverse.eraseP p).reverse

/-- The locks held at an event, from those held before it. -/
def step (t : Trace) (held : List NodeId) (e : Event) : List NodeId :=
  match e.kind with
  | .lock => held ++ [e.node]
  | .unlock => eraseLast (fun id => sameLock t (lockOf t id) (lockOf t e.node)) held
  | _ => held

/-- The locks held at each event of a list, from those held before the first. -/
def scan (t : Trace) : List NodeId → List Event → List (List NodeId)
  | _, [] => []
  | held, e :: es =>
    let held := step t held e
    held :: scan t held es

/-- The locks held at each event of a trace. -/
def ofTrace (t : Trace) : LockSets :=
  ⟨t.threads.map fun th => (scan t [] th.events.toList).toArray⟩

/-- The locks held at an event; none at an event that does not exist. -/
def heldAt (l : LockSets) (r : EventRef) : List NodeId :=
  match l.held[r.thread]? with
  | some events => (events[r.index]?).getD []
  | none => []

/-- Whether some lock held at one event must be a lock held at the other. -/
def sharesLock (t : Trace) (l : LockSets) (a b : EventRef) : Bool :=
  (l.heldAt a).any fun x => (l.heldAt b).any fun y => sameLock t (lockOf t x) (lockOf t y)

end LockSets

end DataRace
