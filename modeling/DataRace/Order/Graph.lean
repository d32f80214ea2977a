import DataRace.Trace.Event
import Std.Data.HashMap
import Std.Data.HashSet

/-!
# Order graphs

The points that are ordered are the events of a trace, a start and an end for every thread, and one
meeting point for every round of a barrier.  An `OrderGraph` has an edge from one point to another
that it comes before.

`OrderGraph.reaches` searches for a path.  `OrderGraph.sorted?` lists the points so that every edge
leads forward, which is possible only if no path leads back to where it began.
-/

namespace DataRace

/-- What is ordered. -/
inductive Point where
  | start (thread : ThreadId)
  | event (r : EventRef)
  | finish (thread : ThreadId)
  /-- Where the members of a barrier group meet. -/
  | meet (group round : Nat)
  deriving DecidableEq, Hashable, Repr, Inhabited

/-- Points with an order. -/
structure OrderGraph where
  points : List Point
  edges : List (Point × Point)

namespace OrderGraph

/-- For each point, the values that a list of pairs gives to it, in order. -/
def index (pairs : List (Point × Point)) : Std.HashMap Point (List Point) :=
  pairs.foldr (fun (a, b) m => m.alter a fun row => some (b :: row.getD [])) ∅

/-- The points right after each point. -/
def successors (g : OrderGraph) : Std.HashMap Point (List Point) := index g.edges

/-- The points right before each point. -/
def predecessors (g : OrderGraph) : Std.HashMap Point (List Point) :=
  index (g.edges.map Prod.swap)

/-- Erasing a member makes a set smaller. -/
theorem size_erase_lt {s : Std.HashSet Point} {p : Point} (h : p ∈ s) :
    (s.erase p).size < s.size := by
  have hpos : 0 < s.size := by
    rcases Nat.eq_zero_or_pos s.size with h0 | h0
    · have : s.isEmpty = true := by
        rw [Std.HashSet.isEmpty_eq_size_eq_zero, h0]; rfl
      exact absurd h (by simpa using Std.HashSet.not_mem_of_isEmpty this)
    · exact h0
  rw [Std.HashSet.size_erase]
  simp only [h, if_true]
  omega

/-- Searches for a goal from a list of points, through points that were not visited yet. -/
def search (next : Std.HashMap Point (List Point)) (goal : Point) (unvisited : Std.HashSet Point) :
    List Point → Bool
  | [] => false
  | p :: rest =>
    if h : p ∈ unvisited then
      have := size_erase_lt h
      if p = goal then true
      else search next goal (unvisited.erase p) (next.getD p [] ++ rest)
    else search next goal unvisited rest
termination_by todo => (unvisited.size, todo.length)

/-- Whether a path leads from one point to another; every point leads to itself. -/
def reaches (g : OrderGraph) (a b : Point) : Bool :=
  search g.successors b (Std.HashSet.ofList g.points) [a]

/-- Adds an edge. -/
def addEdge (g : OrderGraph) (a b : Point) : OrderGraph := { g with edges := g.edges ++ [(a, b)] }

/-! ### Sorting -/

/-- One pass over points: those whose predecessors are all placed are placed too.  Answers the
placed points, the order with the latest first, and the points left over with the latest first. -/
def pass (before : Std.HashMap Point (List Point)) :
    List Point → Std.HashSet Point → List Point → List Point →
      Std.HashSet Point × List Point × List Point
  | [], placed, order, left => (placed, order, left)
  | p :: ps, placed, order, left =>
    if (before.getD p []).all placed.contains then
      pass before ps (placed.insert p) (p :: order) left
    else pass before ps placed order (p :: left)

/-- Repeats passes over what is left until nothing is, or until a pass places nothing. -/
def sort (before : Std.HashMap Point (List Point)) (placed : Std.HashSet Point)
    (order waiting : List Point) : Option (List Point) :=
  if waiting.isEmpty then some order.reverse
  else
    match pass before waiting placed order [] with
    | (placed, order, left) =>
      if left.length < waiting.length then sort before placed order left.reverse else none
termination_by waiting.length
decreasing_by simpa

/-- The points in an order in which every edge leads forward, if there is one. -/
def sorted? (g : OrderGraph) : Option (List Point) := sort g.predecessors ∅ [] g.points

/-- Whether no path leads back to where it began. -/
def isAcyclic (g : OrderGraph) : Bool := g.sorted?.isSome

end OrderGraph

end DataRace
