import StackGraph.Node.Build
import StackGraph.Pool.Basic

/-!
# Sharing a whole ancestry

`share` rewrites a node so that it and everything below it are nodes of a pool. What lies below is
shared first; when one of these nodes was replaced, the node is rebuilt over the replacements. A
trail remembers by identity what became of each node, so that a node with several paths to it is
shared once, and it may be kept for later runs. What the trail or the pool knows is taken as it is.

* `Trail` -- what became of the nodes seen so far.
* `Sharing` -- a pool beside a trail, the table of the computations here.
* `intern` -- puts one node into the pool.
* `settle` -- gives a node whose ancestry is shared its canonical instance.
* `share` -- shares a node and everything below it.
-/

namespace StackGraph

/-- Nodes seen, each with its canonical instance. A node is looked for by identity. -/
structure Trail where
  steps : List (Node × Node)

namespace Trail

/-- The trail without nodes. -/
def empty : Trail := ⟨[]⟩

/-- The number of nodes seen. -/
def size (t : Trail) : Nat := t.steps.length

/-- What became of this very node. -/
def find? (t : Trail) (n : Node) : Option Node :=
  (t.steps.find? (·.1.same n)).map (·.2)

/-- Replaces what became of a node, or adds the node at the end. -/
def put (n canonical : Node) : List (Node × Node) → List (Node × Node)
  | [] => [(n, canonical)]
  | (seen, known) :: rest =>
    if seen.same n then (seen, canonical) :: rest else (seen, known) :: put n canonical rest

/-- Remembers what became of a node. -/
def insert (t : Trail) (n canonical : Node) : Trail := ⟨put n canonical t.steps⟩

end Trail

/-- A pool and the trail of a run that shares nodes in it. -/
structure Sharing where
  pool : Pool
  trail : Trail

/-- Puts a node into the pool and reports when the pool grew. The result is the canonical node. -/
def intern (n : Node) : GraphM Sharing Node := do
  let before := (← GraphM.table).pool
  let (canonical, after) := before.intern n
  GraphM.change fun t => { t with pool := after }
  if after.size ≠ before.size then
    GraphM.emit (.pooled canonical.key)
  return canonical

/-- Remembers what became of a node. -/
def noteStep (n canonical : Node) : GraphM Sharing Unit :=
  GraphM.change fun t => { t with trail := t.trail.insert n canonical }

/-- Answers from the trail or from the pool, and shares by `otherwise` what neither knows. -/
def recallOr (n : Node) (otherwise : GraphM Sharing Node) : GraphM Sharing Node := do
  let t ← GraphM.table
  match t.trail.find? n with
  | some canonical => return canonical
  | none =>
    match t.pool.find? n with
    | some canonical =>
      noteStep n canonical
      return canonical
    | none => otherwise

/-- The canonical instance of a node whose slots, with what lies below them shared, are `slots`.
    The node itself is used when every slot still leads to the same node, else it is rebuilt. -/
def settle (n : Node) (slots : List (Slot Node)) : GraphM Sharing Node := do
  if slots.map (Slot.map Node.id) = n.slots.map (Slot.map Node.id) then
    let canonical ← intern n
    noteStep n canonical
    return canonical
  else
    let rebuilt ← Node.ofSlots slots
    let canonical ← intern rebuilt
    GraphM.emit (.rebuilt canonical.key)
    noteStep rebuilt canonical
    noteStep n canonical
    return canonical

/-- What takes the place of the node `below`: what it became, unless that is the same node. -/
def replacement (below shared : Node) : Node := if shared.same below then below else shared

mutual

/-- Shares a node and everything below it. A bottom is left as it is. -/
def share : Node → GraphM Sharing Node
  | .bottom i => pure (.bottom i)
  | .frame i k state parent =>
    recallOr (.frame i k state parent) do
      let shared ← share parent
      settle (.frame i k state parent) [⟨state, some (replacement parent shared)⟩]
  | .choice i k slots =>
    recallOr (.choice i k slots) do
      settle (.choice i k slots) (← shareSlots slots)

/-- Shares what lies below the slots, from the first slot on. -/
def shareSlots : List (Slot Node) → GraphM Sharing (List (Slot Node))
  | [] => pure []
  | ⟨state, none⟩ :: rest => do
    return ⟨state, none⟩ :: (← shareSlots rest)
  | ⟨state, some parent⟩ :: rest => do
    let shared ← share parent
    return ⟨state, some (replacement parent shared)⟩ :: (← shareSlots rest)

end

end StackGraph
