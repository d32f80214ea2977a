/-!
# YAML nodes as they are written

A `Tree` is a node with its tag and its anchor, before its value is known.  Anchors are numbered:
one takes the number of distinct names that were given before it, and an alias the number that its
name has last been given.
-/

namespace DataRace

namespace Yaml

/-- What may stand before a node. -/
structure Properties where
  tag : Option String
  anchor : Option Nat
  deriving DecidableEq, Repr

/-- A node as it is written. -/
inductive Tree where
  | alias (anchor : Nat)
  | scalar (properties : Properties) (text : String) (isPlain : Bool)
  | seq (properties : Properties) (items : List Tree)
  | map (properties : Properties) (entries : List (Tree × Tree))
  deriving Repr

namespace Tree

/-- The node that is written as nothing. -/
def empty (properties : Properties) : Tree := .scalar properties "" true

/-- No properties. -/
def bare : Properties := ⟨none, none⟩

/-- The number of the anchor of a node. -/
def anchor? : Tree → Option Nat
  | .alias _ => none
  | .scalar p _ _ => p.anchor
  | .seq p _ => p.anchor
  | .map p _ => p.anchor

/-- A node and all nodes in it, each before those that it holds. -/
def nodes : Tree → List Tree
  | .alias k => [.alias k]
  | .scalar p text isPlain => [.scalar p text isPlain]
  | .seq p items => .seq p items :: nodesOfItems items
  | .map p entries => .map p entries :: nodesOfEntries entries
where
  /-- The nodes of the items of a sequence. -/
  nodesOfItems : List Tree → List Tree
    | [] => []
    | t :: ts => nodes t ++ nodesOfItems ts
  /-- The nodes of the entries of a mapping. -/
  nodesOfEntries : List (Tree × Tree) → List Tree
    | [] => []
    | (key, value) :: es => nodes key ++ nodes value ++ nodesOfEntries es

/-- Whether a node brackets others. -/
def isCollection : Tree → Bool
  | .seq _ _ | .map _ _ => true
  | _ => false

/-- The extent of a node: one for each node in it, and another one for each collection. -/
def extent (t : Tree) : Nat :=
  t.nodes.foldl (fun k n => k + if n.isCollection then 2 else 1) 0

end Tree

end Yaml

end DataRace
