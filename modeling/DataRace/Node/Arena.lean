import DataRace.Node.Fault

/-!
# Arenas

An arena holds the nodes of one analysis in the order in which they were made; a node never moves.
A fork can be joined implicitly, by a companion join that is made on demand and once per fork.
-/

namespace DataRace

/-- The nodes of one analysis. -/
structure Arena where
  nodes : Array Node
  deriving Repr, Inhabited

namespace Arena

/-- No nodes. -/
def empty : Arena := ⟨#[]⟩

/-- The number of nodes. -/
def size (a : Arena) : Nat := a.nodes.size

/-- The node at a position. -/
def get? (a : Arena) (id : NodeId) : Option Node := a.nodes[id]?

/-- Adds a node and answers its position. -/
def push (a : Arena) (n : Node) : NodeId × Arena := (a.nodes.size, ⟨a.nodes.push n⟩)

/-- The node at a position that has to exist. -/
def get (a : Arena) (id : NodeId) : Except Fault Node :=
  match a.get? id with
  | some n => .ok n
  | none => .error .outOfRange

/-- The companion join of a fork, if it was made already. -/
def companion? (a : Arena) (fork : NodeId) : Option NodeId :=
  a.nodes.findIdx? fun n => n.companionOf? = some fork

/-- The companion join of a fork node, which is made if it is missing. -/
def companionJoin (a : Arena) (fork : NodeId) : Except Fault (NodeId × Arena) :=
  match a.companion? fork with
  | some id => .ok (id, a)
  | none => do
    let n ← a.get fork
    match n.effect with
    | .fork _ handle _ => .ok (a.push ⟨n.site, .join .companion handle (some fork)⟩)
    | _ => .error (.notAFork n)

/-- All nodes with their positions. -/
def toList (a : Arena) : List (NodeId × Node) := a.nodes.toList.zipIdx.map fun (n, i) => (i, n)

end Arena

end DataRace
