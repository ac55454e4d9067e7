import StackGraph.Node.Entries
import StackGraph.Pool.Share

/-!
# Sharing by index

The same sharing, by a cursor that reads the slots of a node by index and writes what became of a node
below into a copy of the list of them, which is made for the first one. Every assumption is checked on
the way: that an index is below the length, that a node can be made of what was written, and that no
place is reached that should not be.

* `Checked.exchange` -- writes a node into the copy.
* `Checked.shareFrom` -- shares what lies below the slots from an index on.
* `Checked.rebuild` -- a node over other nodes.
* `Checked.share` -- shares a node and everything below it.
-/

namespace StackGraph

namespace Checked

/-- Writes a node into a list at an index. -/
def writeAt (parents : List (Option Node)) (index : Nat) (n : Node) :
    Except Failure (List (Option Node)) :=
  if index < parents.length then .ok (parents.set index (some n))
  else .error (.slotIndex parents.length index)

/-- The list of what lies below the slots of `n`, with a node written at an index. It is copied from
    the slots unless it was copied before. -/
def exchange (n : Node) (copy : Option (List (Option Node))) (index : Nat) (shared : Node) :
    GraphM Sharing (List (Option Node)) := do
  let parents ← match copy with
    | some parents => pure parents
    | none => List.map (·.parent) <$> GraphM.lift n.entries
  GraphM.lift (writeAt parents index shared)

/-- Shares what lies below the slots from index `i` on, and writes what becomes another node. -/
def shareFrom (n : Node) (share : n.Parent → GraphM Sharing Node) (i : Nat)
    (copy : Option (List (Option Node))) : GraphM Sharing (Option (List (Option Node))) :=
  if i < n.size then do
    let slot ← GraphM.lift (n.slotBelow i)
    match slot.parent with
    | none => shareFrom n share (i + 1) copy
    | some p =>
      let shared ← share p
      if shared.same p.1 then
        shareFrom n share (i + 1) copy
      else
        let parents ← exchange n copy i shared
        shareFrom n share (i + 1) (some parents)
  else
    return copy
termination_by n.size - i

/-- Makes a node with the states of `n` over other nodes. -/
def rebuild (n : Node) (parents : List (Option Node)) : GraphM Sharing Node :=
  match n with
  | .bottom _ => throw (.unreachable none)
  | .frame _ _ state _ => Node.ofSlot ⟨state, parents.head?.join⟩
  | .choice _ _ slots => Node.ofLists (Slot.states slots) parents

/-- Gives a node its canonical instance: as it is, or rebuilt over what was written. -/
def settle (n : Node) : Option (List (Option Node)) → GraphM Sharing Node
  | none => do
    let canonical ← intern n
    noteStep n canonical
    return canonical
  | some parents => do
    let rebuilt ← rebuild n parents
    let canonical ← intern rebuilt
    GraphM.emit (.rebuilt canonical.key)
    noteStep rebuilt canonical
    noteStep n canonical
    return canonical

/-- Shares a node and everything below it. A bottom is left as it is. -/
def share (n : Node) : GraphM Sharing Node :=
  if n.isBottom then pure n
  else recallOr n do
    settle n (← shareFrom n (fun p => share p.1) 0 none)
termination_by sizeOf n
decreasing_by exact Node.sizeOf_lt_of_mem_parents p.2

end Checked

end StackGraph
