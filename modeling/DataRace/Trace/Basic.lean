import DataRace.Node.Arena
import DataRace.PointsTo.Basic
import DataRace.Trace.Event

/-!
# Traces

A trace holds the threads of a run with their events, the arena that the events point into, and the
program and points-to facts that it was made from.  Threads stand at the position of their number,
and the main thread is number zero.
-/

namespace DataRace

/-- A thread with its events. -/
structure Thread where
  id : ThreadId
  /-- The routine that the thread runs. -/
  entry : String
  /-- The event that started the thread; the main thread has none. -/
  site : Option EventRef
  /-- The fork node that started the thread. -/
  fork : Option NodeId
  events : Array Event
  children : Array ThreadId
  deriving Repr, Inhabited

namespace Thread

/-- A thread without events. -/
def new (id : ThreadId) (entry : String) (site : Option EventRef) (fork : Option NodeId) : Thread :=
  ⟨id, entry, site, fork, #[], #[]⟩

/-- The thread that started a thread. -/
def parent? (t : Thread) : Option ThreadId := t.site.map EventRef.thread

end Thread

/-- The trace of a program. -/
structure Trace where
  threads : Array Thread
  arena : Arena
  program : Program
  pointsTo : PointsTo

namespace Trace

/-- The number of threads. -/
def threadCount (t : Trace) : Nat := t.threads.size

/-- All events, thread by thread. -/
def events (t : Trace) : List Event := t.threads.toList.flatMap fun th => th.events.toList

/-- The number of events. -/
def eventCount (t : Trace) : Nat := t.threads.foldl (fun n th => n + th.events.size) 0

/-- The events of a thread, none for a thread that does not exist. -/
def eventsOf (t : Trace) (thread : ThreadId) : Array Event :=
  match t.threads[thread]? with
  | some th => th.events
  | none => #[]

/-- The event of a name. -/
def event? (t : Trace) (r : EventRef) : Option Event := (t.eventsOf r.thread)[r.index]?

/-- The node of an event. -/
def node? (t : Trace) (e : Event) : Option Node := t.arena.get? e.node

/-- The interface by which a thread was started. -/
def spawnApi? (t : Trace) (thread : ThreadId) : Option ForkApi := do
  let th ← t.threads[thread]?
  let n ← t.arena.get? (← th.fork)
  n.forkApi?

end Trace

end DataRace
