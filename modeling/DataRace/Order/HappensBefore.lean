import DataRace.Order.BarrierGroup
import DataRace.Order.Graph
import DataRace.Order.VectorClock
import DataRace.Trace.Describe

/-!
# Happens-before

The order of the events of a trace: within a thread events come one after the other, a fork comes
before the child starts, a child ends before it is joined, and at a barrier every member of the
group arrives before any goes on.

Program order and forks never lead in a circle.  A join that would close a circle is left out, and
so is a barrier group, each on its own.  Clocks are computed along the sorted graph: the clock of a
point joins the clocks of the points right before it, and an event counts itself.  One event happens
before another of a different thread if the clock of the other has counted it.
-/

namespace DataRace

/-- The order of the events of a trace. -/
structure HappensBefore where
  graph : OrderGraph
  groups : List (List ThreadId)
  /-- Groups left out, by position. -/
  droppedGroups : List Nat
  /-- Joins left out. -/
  droppedJoins : List EventRef
  clocks : Std.HashMap Point VectorClock

namespace HappensBefore

/-! ### The graph -/

/-- The points of a thread in program order. -/
def pointsOf (t : Thread) : List Point :=
  .start t.id :: t.events.toList.map (fun e => .event e.ref) ++ [.finish t.id]

/-- The edges between neighbours of a list. -/
def chainEdges : List Point → List (Point × Point)
  | a :: b :: rest => (a, b) :: chainEdges (b :: rest)
  | _ => []

/-- The edge from a fork to the start of the child. -/
def forkEdge? (e : Event) : Option (Point × Point) :=
  match e.kind with
  | .fork child => some (.event e.ref, .start child)
  | _ => none

/-- Program order and forks. -/
def base (t : Trace) : OrderGraph where
  points := t.threads.toList.flatMap pointsOf
  edges :=
    t.threads.toList.flatMap (fun th => chainEdges (pointsOf th)) ++ t.events.filterMap forkEdge?

/-- Adds the edge from the end of a joined thread to the join, unless the join comes before that
end already.  Joins left out are collected. -/
def addJoin (state : OrderGraph × List EventRef) (e : Event) : OrderGraph × List EventRef :=
  let (g, dropped) := state
  match e.kind with
  | .join (some child) =>
    if g.reaches (.event e.ref) (.finish child) then (g, dropped ++ [e.ref])
    else (g.addEdge (.finish child) (.event e.ref), dropped)
  | _ => (g, dropped)

/-- The point after an event in its thread. -/
def pointAfter (t : Trace) (r : EventRef) : Point :=
  if r.index + 1 < (t.eventsOf r.thread).size then .event ⟨r.thread, r.index + 1⟩
  else .finish r.thread

/-- The barrier events of a thread. -/
def barriersOf (t : Trace) (thread : ThreadId) : List EventRef :=
  (t.eventsOf thread).toList.filterMap fun e => if e.kind = .barrier then some e.ref else none

/-- The edges of one round of a group: every member with a barrier in this round goes through the
meeting point. -/
def roundEdges (t : Trace) (group round : Nat) (barriers : List (List EventRef)) :
    List (Point × Point) :=
  barriers.flatMap fun bs =>
    match bs[round]? with
    | some r => [(.event r, .meet group round), (.meet group round, pointAfter t r)]
    | none => []

/-- The graph with all rounds of a group. -/
def withGroup (t : Trace) (g : OrderGraph) (group : Nat) (members : List ThreadId) : OrderGraph :=
  let barriers := members.map (barriersOf t)
  let rounds := (barriers.map List.length).foldl max 0
  { points := g.points ++ (List.range rounds).map (.meet group)
    edges := g.edges ++ (List.range rounds).flatMap fun k => roundEdges t group k barriers }

/-- Adds a group, unless that closes a circle.  Groups left out are collected. -/
def addGroup (t : Trace) (state : OrderGraph × List Nat) (group : List ThreadId × Nat) :
    OrderGraph × List Nat :=
  let (g, dropped) := state
  let extended := withGroup t g group.2 group.1
  if extended.isAcyclic then (extended, dropped) else (g, dropped ++ [group.2])

/-! ### Clocks -/

/-- The clock of a point from the clocks of the points before it. -/
def clockAt (threads : Nat) (before : List VectorClock) (p : Point) : VectorClock :=
  let joined := before.foldl VectorClock.join (VectorClock.new threads)
  match p with
  | .event r => joined.advance r.thread (r.index + 1)
  | _ => joined

/-- The clocks of points that are listed in order. -/
def clocksOf (threads : Nat) (before : Std.HashMap Point (List Point)) (order : List Point) :
    Std.HashMap Point VectorClock :=
  order.foldl (fun clocks p =>
    clocks.insert p (clockAt threads ((before.getD p []).filterMap fun q => clocks[q]?) p)) ∅

/-- Fails if an event names a thread that does not exist. -/
def checkThreads (t : Trace) : Except Fault Unit :=
  if t.events.all fun e =>
    match e.kind with
    | .fork child | .join (some child) => decide (child < t.threadCount)
    | _ => true
  then .ok () else .error .outOfRange

/-- The order of a trace. -/
def ofTrace (t : Trace) : Except Fault HappensBefore := do
  checkThreads t
  let groups ← t.barrierGroups
  let (joined, droppedJoins) := t.events.foldl addJoin (base t, [])
  let (graph, droppedGroups) := groups.zipIdx.foldl (addGroup t) (joined, [])
  match graph.sorted? with
  | none => .error .cyclicOrder
  | some order =>
    .ok
      { graph, groups, droppedGroups, droppedJoins
        clocks := clocksOf t.threadCount graph.predecessors order }

/-! ### Questions -/

/-- The clock at an event. -/
def clock? (h : HappensBefore) (r : EventRef) : Option VectorClock := h.clocks[Point.event r]?

/-- The clock at the end of a thread. -/
def endClock? (h : HappensBefore) (thread : ThreadId) : Option VectorClock :=
  h.clocks[Point.finish thread]?

/-- Whether an event happens before another. -/
def before (h : HappensBefore) (a b : EventRef) : Bool :=
  (h.clock? a).isSome &&
    if a.thread = b.thread then decide (a.index < b.index) && (h.clock? b).isSome
    else
      match h.clock? b with
      | some c => decide (a.index < c.get a.thread)
      | none => false

/-- Whether two events are different and neither happens before the other. -/
def concurrent (h : HappensBefore) (a b : EventRef) : Bool :=
  a != b && !h.before a b && !h.before b a

/-- The size of a graph, its groups and what was left out, in a diagnostic. -/
def describe (h : HappensBefore) : String :=
  describeRecord "HappensBeforeGraph"
    [("nodes", toString h.graph.points.length), ("edges", toString h.graph.edges.length),
      ("barrier_groups", toString h.groups.length),
      ("dropped_groups", describeList (h.droppedGroups.map toString)),
      ("dropped_joins", describeList (h.droppedJoins.map EventRef.describe))]

end HappensBefore

end DataRace
