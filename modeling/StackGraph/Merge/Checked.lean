import StackGraph.Merge.Basic
import StackGraph.Node.Entries

/-!
# The merge by index

The same merge, by two cursors that read the slots of both nodes by index, and with every assumption
checked on the way: that an index is below the size, that a list of states and a list of nodes are of
one length and make a node, that one of two nodes that are merged slot by slot is a choice, and that
no place is reached that should not be.

* `Checked.weaveFrom` -- the union of the slots from two indices on, as a list of states and a list
  of what lies below them.
* `Checked.ofUnion` -- the node of such a union.
* `Checked.joinSlots`, `Checked.joinRoots`, `Checked.joinFrames` -- the three ways to merge.
* `Checked.merge` -- the merge of two nodes.
-/

namespace StackGraph

namespace Checked

variable {μ : Type} {a : Node}

/-- What lies below a slot that both nodes have: the merge of both sides, or the only one. -/
def joinParents (join : a.Parent → Node → GraphM μ Node) :
    Option a.Parent → Option Node → GraphM μ (Option Node)
  | some p, some q => if p.1.same q then pure (some p.1) else some <$> join p q
  | some p, none => pure (some p.1)
  | none, q => pure q

/-- Puts a slot in front of the states and of what lies below them. -/
def withSlot (s : Slot Node) (lists : List State × List (Option Node)) :
    List State × List (Option Node) :=
  (s.state :: lists.1, s.parent :: lists.2)

/-- A list of slots as the states and what lies below them. -/
def split (slots : List (Slot Node)) : List State × List (Option Node) :=
  (Slot.states slots, slots.map (·.parent))

/-- The union of the slots of `a` from index `i` on and of those of `b` from index `j` on. When one
    node is at its end, the slots that are left of the other follow. -/
def weaveFrom (a b : Node) (join : a.Parent → Node → GraphM μ Node) (i j : Nat) :
    GraphM μ (List State × List (Option Node)) :=
  if h : i < a.size ∧ j < b.size then do
    let s ← GraphM.lift (a.slotBelow i)
    let t ← GraphM.lift (b.slotAt j)
    if s.state = t.state then do
      let parent ← joinParents join s.parent t.parent
      withSlot ⟨s.state, parent⟩ <$> weaveFrom a b join (i + 1) (j + 1)
    else if s.state < t.state then
      withSlot (s.map Subtype.val) <$> weaveFrom a b join (i + 1) j
    else
      withSlot t <$> weaveFrom a b join i (j + 1)
  else do
    let left ← GraphM.lift a.entries
    let right ← GraphM.lift b.entries
    return split (left.drop i ++ right.drop j)
termination_by (a.size - i) + (b.size - j)

/-- Makes equal nodes of the list one node, the earliest of them. -/
def coalesce (parents : List (Option Node)) : List (Option Node) :=
  parents.map (Option.map (earliest parents.reduceOption))

/-- The node of a union. A single slot becomes a node as it is; of several, equal nodes below are made
    one, and an operand is used where it is equal. -/
def ofUnion (a b : Node) : List State × List (Option Node) → GraphM μ Node
  | ([state], parents) => Node.ofSlot ⟨state, parents.getLast?.join⟩
  | (states, parents) => reuse a b <$> Node.ofLists states (coalesce parents)

/-- Merges two nodes slot by slot. -/
def joinSlots (a b : Node) (join : a.Parent → Node → GraphM μ Node) : GraphM μ Node := do
  let kept ← ofUnion a b (← weaveFrom a b join 0 0)
  GraphM.emit (.choiceMerge a.key b.key kept.size)
  return kept

/-- A choice between the first slot of a node and the end of a stack. -/
def besideEnd (n : Node) : GraphM μ Node := do
  let slot ← GraphM.lift (n.slotAt 0)
  Node.ofLists [slot.state, State.bottom] [slot.parent, none]

/-- Merges a bottom with a bottom or a frame, or a frame with a bottom. -/
def joinRoots (mode : Mode) (a b : Node) : GraphM μ Node := do
  GraphM.emit (.rootMerge mode)
  match mode with
  | .wildcard => return Node.empty
  | .exact =>
    match a.isBottom, b.isBottom with
    | true, true => return Node.empty
    | true, false => besideEnd b
    | false, true => besideEnd a
    | false, false => throw (.unreachable (some "root merge of two non-empty frames"))

/-- Whether two nodes are the same node or else have the same structure. -/
def alike (a b : Node) : Bool := a.same b || a == b

/-- Merges the frames `a`, of state `x` over `p`, and `b`, of state `y` over `q`. The merge of `p`
    and `q` is made by `join`. -/
def joinFrames (a : Node) (x : State) (p : Node) (b : Node) (y : State) (q : Node)
    (join : GraphM μ Node) : GraphM μ Node :=
  if x = y then do
    let parent ← join
    if alike parent p then return a
    else if alike parent q then return b
    else Node.push parent x
  else if x < y then Node.ofLists [x, y] [some p, some q]
  else Node.ofLists [y, x] [some q, some p]

variable [Memo μ]

/-- Merges two nodes into one that stands for the stacks of both. -/
def merge (mode : Mode) (a b : Node) : GraphM μ Node :=
  if a.same b then pure a
  else if a.kind ≠ .choice ∧ b.kind ≠ .choice then
    memoized a b <|
      match a, b with
      | .frame _ _ x p, .frame _ _ y q => joinFrames a x p b y q (merge mode p q)
      | _, _ => joinRoots mode a b
  else if mode = .wildcard ∧ a.isBottom then pure a
  else if mode = .wildcard ∧ b.isBottom then pure b
  else if a.kind = .choice ∨ b.kind = .choice then
    memoized a b (joinSlots a b fun p q => merge mode p.1 q)
  else throw .noChoice
termination_by sizeOf a
decreasing_by
  · exact Node.sizeOf_lt_of_mem_parents List.mem_cons_self
  · exact Node.sizeOf_lt_of_mem_parents p.2

end Checked

end StackGraph
