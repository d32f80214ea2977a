import DataRace.Program.Describe
import DataRace.Trace.Basic

/-!
# Diagnostic form of a trace

`Trace.describe` shows the threads of a trace with their events on one line.
-/

namespace DataRace

namespace EventRef

/-- The name of an event in a diagnostic. -/
def describe (r : EventRef) : String :=
  describeRecord "EventRef" [("tid", toString r.thread), ("eid", toString r.index)]

end EventRef

namespace EventKind

/-- What happens in an event, in a diagnostic. -/
def describe : EventKind → String
  | .read => "Read"
  | .write => "Write"
  | .free => "Free"
  | .fork child => describeRecord "Fork" [("child", toString child)]
  | .join child => describeRecord "Join" [("child", describeOption (child.map toString))]
  | .lock => "Lock"
  | .unlock => "Unlock"
  | .barrier => "Barrier"
  | .call => "Call"
  | .return => "Return"

end EventKind

/-- The position of a node in a diagnostic. -/
def describeNodeId (id : NodeId) : String := "NodeId(" ++ toString id ++ ")"

namespace Event

/-- An event in a diagnostic. -/
def describe (e : Event) : String :=
  describeRecord "Event"
    [("tid", toString e.thread), ("eid", toString e.index), ("node", describeNodeId e.node),
      ("kind", e.kind.describe)]

end Event

namespace Thread

/-- A thread in a diagnostic. -/
def describe (t : Thread) : String :=
  describeRecord "ThreadTrace"
    [("id", toString t.id), ("entry", Quoted.quote t.entry),
      ("parent", describeOption (t.parent?.map toString)),
      ("spawn_site", describeOption (t.site.map EventRef.describe)),
      ("spawn_fork", describeOption (t.fork.map describeNodeId)),
      ("events", describeList (t.events.toList.map Event.describe)),
      ("children", describeList (t.children.toList.map toString))]

end Thread

namespace Trace

/-- A trace in a diagnostic. -/
def describe (t : Trace) : String :=
  describeRecord "ProgramTrace"
    [("module", Quoted.quote t.program.name),
      ("threads", describeList (t.threads.toList.map Thread.describe)),
      ("nodes", toString t.arena.size)]

end Trace

end DataRace
