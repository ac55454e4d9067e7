import StackGraph.Node.Discover

/-!
# Numbers of nodes

Nodes are shown by number. A node gets its number when it is first mentioned, and with it everything
below it that has none yet, in the order of `Node.discover`. The common bottom has the number 0.

* `Numbering.mention` -- numbers a node and what lies below it.
* `Numbering.number` -- the number of a node.
* `Numbering.since` -- the nodes numbered since an earlier numbering.
-/

namespace StackGraph

/-- The numbered nodes: the number of a node is its position. -/
structure Numbering where
  nodes : List Node

namespace Numbering

/-- At the start only the common bottom has a number. -/
def start : Numbering := ⟨[Node.empty]⟩

/-- Gives a node the next number, unless it has one. -/
def add (numbering : Numbering) (n : Node) : Numbering :=
  if n.isAmong numbering.nodes then numbering else ⟨numbering.nodes ++ [n]⟩

/-- Numbers a node and everything below it, unless the node has a number. -/
def mention (numbering : Numbering) (n : Node) : Numbering :=
  if n.isAmong numbering.nodes then numbering else n.discover.foldl add numbering

/-- Mentions a list of nodes in turn. -/
def mentionAll (numbering : Numbering) (nodes : List Node) : Numbering :=
  nodes.foldl mention numbering

/-- The number of a node. -/
def number (numbering : Numbering) (n : Node) : Nat := n.positionIn numbering.nodes

/-- The nodes numbered since `earlier`, in the order of their numbers. -/
def since (numbering earlier : Numbering) : List Node :=
  numbering.nodes.drop earlier.nodes.length

end Numbering

end StackGraph
