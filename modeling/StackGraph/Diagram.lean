import StackGraph.Node.Discover

/-!
# Diagrams

A diagram is a directed graph with labels: a vertex for each node that can be reached from a node,
and an arrow from each node to what lies below its slots. Vertices are numbered in the order of
`Node.discover`, so vertex 0 is the node itself, and an arrow is labelled with the index of its
slot when its node has several slots.

* `Node.label` -- the states of a node, as written on its vertex.
* `Node.diagram` -- the diagram of a node.
* `Diagram.dot` -- a diagram in the DOT language.
-/

namespace StackGraph

/-- An arrow between two vertices. -/
structure Arrow where
  source : Nat
  target : Nat
  label : String
  deriving DecidableEq, Repr

/-- A labelled directed graph. -/
structure Diagram where
  /-- The label of each vertex. -/
  labels : List String
  /-- The arrows. -/
  arrows : List Arrow
  deriving DecidableEq, Repr

namespace Node

/-- The states of a node: one state alone, several between brackets. -/
def label : Node → String
  | .bottom _ => State.bottom.text
  | .frame _ _ state _ => state.text
  | .choice _ _ slots =>
    "[" ++ String.intercalate ", " (slots.map fun s => s.state.text) ++ "]"

/-- The label of the arrow from a slot. -/
def slotLabel (n : Node) (index : Nat) : String := if 1 < n.size then toString index else ""

/-- The arrow from the slot at an index, when something lies below it. -/
def arrow? (nodes : List Node) (n : Node) (slot : Slot Node) (index : Nat) : Option Arrow :=
  slot.parent.map fun p => ⟨n.positionIn nodes, p.positionIn nodes, n.slotLabel index⟩

/-- The arrows of a node, in slot order. -/
def arrows (nodes : List Node) (n : Node) : List Arrow :=
  (n.slots.mapIdx fun index slot => arrow? nodes n slot index).filterMap (fun a => a)

/-- The diagram of everything that can be reached from a node. -/
def diagram (n : Node) : Diagram :=
  let nodes := n.discover
  ⟨nodes.map label, nodes.flatMap (arrows nodes)⟩

end Node

namespace Diagram

/-- The line of a vertex. -/
def vertexLine (index : Nat) (label : String) : String :=
  s!"    {index} [ label = \"{label}\" ]\n"

/-- The line of an arrow. -/
def arrowLine (a : Arrow) : String :=
  s!"    {a.source} -> {a.target} [ label = \"{a.label}\" ]\n"

/-- A diagram in the DOT language: the vertices, and then the arrows. -/
def dot (d : Diagram) : String :=
  "digraph \x7b\n" ++ String.join (d.labels.mapIdx vertexLine)
    ++ String.join (d.arrows.map arrowLine) ++ "\x7d\n"

end Diagram

end StackGraph
