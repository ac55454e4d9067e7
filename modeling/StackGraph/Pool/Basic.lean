import StackGraph.Node.Equal

/-!
# Pools of canonical nodes

A pool holds one instance of each structure that was put in; the bottom is never put in, since the
common bottom already is its one instance. Nodes are compared by structure.

* `Pool.find?` -- the instance of the structure of a node.
* `Pool.intern` -- the instance, which is the node itself when the pool had none.
-/

namespace StackGraph

/-- The canonical nodes, in the order in which they came. -/
structure Pool where
  nodes : List Node

namespace Pool

/-- The pool without nodes. -/
def empty : Pool := ⟨[]⟩

/-- The number of nodes. -/
def size (p : Pool) : Nat := p.nodes.length

/-- The node of the pool that has the structure of `n`. -/
def find? (p : Pool) (n : Node) : Option Node := p.nodes.find? (· == n)

/-- The canonical node of the structure of `n`, and the pool that holds it. A bottom stands for the
    common bottom, which is not kept. -/
def intern (p : Pool) (n : Node) : Node × Pool :=
  if n.isBottom then (Node.empty, p)
  else match p.find? n with
  | some canonical => (canonical, p)
  | none => (n, ⟨p.nodes ++ [n]⟩)

/-- A structure that is there is found, and the pool stays. -/
theorem intern_of_find?_eq_some {p : Pool} {n canonical : Node} (hn : n.isBottom = false)
    (h : p.find? n = some canonical) : p.intern n = (canonical, p) := by
  simp [intern, hn, h]

/-- **A new structure is put in as it comes.** -/
theorem intern_of_find?_eq_none {p : Pool} {n : Node} (hn : n.isBottom = false)
    (h : p.find? n = none) : p.intern n = (n, ⟨p.nodes ++ [n]⟩) := by
  simp [intern, hn, h]

/-- What is found is in the pool. -/
theorem mem_of_find?_eq_some {p : Pool} {n canonical : Node} (h : p.find? n = some canonical) :
    canonical ∈ p.nodes := List.mem_of_find?_eq_some h

/-- What is found has the structure that was looked for. -/
theorem beq_of_find?_eq_some {p : Pool} {n canonical : Node} (h : p.find? n = some canonical) :
    (canonical == n) = true := by
  simpa using List.find?_some h

end Pool

end StackGraph
