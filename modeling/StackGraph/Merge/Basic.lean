import StackGraph.Merge.Memo
import StackGraph.Node.Build

/-!
# Merging nodes

The merge of two nodes stands for the stacks of both. It is one of the operands wherever that is
enough, and else shares what lies below them.

* The same node merges with itself to itself.
* Two frames of the same state merge to that state over the merge of what lies below; frames of
  different states merge to a choice between both.
* A bottom is treated as the `Mode` says: as a wildcard it swallows the other node, in an exact
  merge it becomes a slot of its own beside the others.
* When one node is a choice, both are read as lists of slots, which are woven into one ascending
  list; slots of one state merge what lies below. Afterwards equal nodes below are made one node.

The recursion goes down the left node. What is to be merged below a slot travels with the slot as
a `Mergeable`, a node beside the merge of this node with any other.

* `weave` -- the ascending union of two lists of slots.
* `coalesce` -- makes equal nodes below the slots one node.
* `merge` -- the merge of two nodes.
* `mergeables_eq_map` -- a slot list of mergeable nodes is the slot list with `merge` beside each
  node.
-/

namespace StackGraph

/-- A node beside the operation that merges it with another node. -/
structure Mergeable (μ : Type) where
  node : Node
  join : Node → GraphM μ Node

variable {μ : Type}

/-- The slot without the operation. -/
def Mergeable.slot (s : Slot (Mergeable μ)) : Slot Node := s.map Mergeable.node

/-- What lies below a slot that both lists have: the merge of both sides, or the only one. -/
def joinParents : Option (Mergeable μ) → Option Node → GraphM μ (Option Node)
  | some p, some q => if p.node.same q then pure (some p.node) else some <$> p.join q
  | some p, none => pure (some p.node)
  | none, q => pure q

/-- Puts a slot in its place among ascending slots. The slots before it stay as they are, a slot of
    its state is joined with it, and `rest` goes on with the slots after it. -/
def place (s : Slot (Mergeable μ)) (rest : List (Slot Node) → GraphM μ (List (Slot Node))) :
    List (Slot Node) → GraphM μ (List (Slot Node))
  | [] => (Mergeable.slot s :: ·) <$> rest []
  | t :: right =>
    if t.state < s.state then (t :: ·) <$> place s rest right
    else if t.state = s.state then do
      let parent ← joinParents s.parent t.parent
      (⟨s.state, parent⟩ :: ·) <$> rest right
    else (Mergeable.slot s :: ·) <$> rest (t :: right)

/-- The ascending union of two ascending lists of slots. -/
def weave : List (Slot (Mergeable μ)) → List (Slot Node) → GraphM μ (List (Slot Node))
  | [], right => pure right
  | s :: left, right => place s (weave left) right

/-- The earliest node of the list that is equal to `n`, or `n` itself when there is none. -/
def earliest (nodes : List Node) (n : Node) : Node := (nodes.find? (· == n)).getD n

/-- Makes equal nodes below the slots one node, the earliest of them. -/
def coalesce (slots : List (Slot Node)) : List (Slot Node) :=
  slots.map (Slot.map (earliest (Slot.parents slots)))

/-- The first of `a` and `b` that is equal to the merged node, else the merged node. -/
def reuse (a b merged : Node) : Node :=
  if merged == a then a else if merged == b then b else merged

/-- Merges two nodes slot by slot. `slots` are the slots of `a`. -/
def joinSlots (a b : Node) (slots : List (Slot (Mergeable μ))) : GraphM μ Node := do
  let woven ← weave slots b.slots
  let merged ← Node.ofSlots (coalesce woven)
  let kept := reuse a b merged
  GraphM.emit (.choiceMerge a.key b.key kept.size)
  return kept

/-- Merges a bottom with a bottom or a frame, or a frame with a bottom. -/
def joinRoots (mode : Mode) (a b : Node) : GraphM μ Node := do
  GraphM.emit (.rootMerge mode)
  match mode with
  | .wildcard => return Node.empty
  | .exact =>
    match a.isBottom, b.isBottom with
    | true, true => return Node.empty
    | true, false => Node.ofSlots (b.slots ++ [⟨State.bottom, none⟩])
    | false, _ => Node.ofSlots (a.slots ++ [⟨State.bottom, none⟩])

/-- Merges the frames `a`, of state `x` over `p`, and `b`, of state `y` over `q`. -/
def joinFrames (a : Node) (x : State) (p : Mergeable μ) (b : Node) (y : State) (q : Node) :
    GraphM μ Node :=
  if x = y then do
    let parent ← p.join q
    if parent == p.node then return a
    else if parent == q then return b
    else Node.push parent x
  else if x < y then Node.ofSlots [⟨x, some p.node⟩, ⟨y, some q⟩]
  else Node.ofSlots [⟨y, some q⟩, ⟨x, some p.node⟩]

variable [Memo μ]

/-- Merges a bottom with any node. -/
def mergeBottom (mode : Mode) (a b : Node) : GraphM μ Node :=
  if a.same b then pure a
  else match b with
  | .bottom _ => memoized a b (joinRoots mode a b)
  | .frame _ _ _ _ => memoized a b (joinRoots mode a b)
  | .choice _ _ _ =>
    match mode with
    | .wildcard => pure a
    | .exact => memoized a b (joinSlots a b [⟨State.bottom, none⟩])

/-- Merges a frame, of state `x` over `p`, with any node. -/
def mergeFrame (mode : Mode) (a : Node) (x : State) (p : Mergeable μ) (b : Node) : GraphM μ Node :=
  if a.same b then pure a
  else match b with
  | .bottom _ => memoized a b (joinRoots mode a b)
  | .frame _ _ y q => memoized a b (joinFrames a x p b y q)
  | .choice _ _ _ => memoized a b (joinSlots a b [⟨x, some p⟩])

/-- Merges a choice between `slots` with any node. -/
def mergeChoice (mode : Mode) (a : Node) (slots : List (Slot (Mergeable μ))) (b : Node) :
    GraphM μ Node :=
  if a.same b then pure a
  else if b.isBottom ∧ mode = .wildcard then pure b
  else memoized a b (joinSlots a b slots)

mutual

/-- Merges two nodes into one that stands for the stacks of both. -/
def merge (mode : Mode) : Node → Node → GraphM μ Node
  | .bottom i, b => mergeBottom mode (.bottom i) b
  | .frame i k x p, b => mergeFrame mode (.frame i k x p) x ⟨p, merge mode p⟩ b
  | .choice i k slots, b => mergeChoice mode (.choice i k slots) (mergeables mode slots) b

/-- The slots with the merge of what lies below them. -/
def mergeables (mode : Mode) : List (Slot Node) → List (Slot (Mergeable μ))
  | [] => []
  | ⟨state, none⟩ :: rest => ⟨state, none⟩ :: mergeables mode rest
  | ⟨state, some p⟩ :: rest => ⟨state, some ⟨p, merge mode p⟩⟩ :: mergeables mode rest

end

/-- A node beside its merge. -/
def mergeable (mode : Mode) (n : Node) : Mergeable μ := ⟨n, merge mode n⟩

/-- **A list of mergeable slots is the list of slots with `merge` beside each node.** -/
theorem mergeables_eq_map (mode : Mode) (slots : List (Slot Node)) :
    mergeables (μ := μ) mode slots = slots.map (Slot.map (mergeable mode)) := by
  induction slots with
  | nil => rfl
  | cons s rest ih =>
    obtain ⟨state, parent⟩ := s
    cases parent with
    | none => simp [mergeables, ih, Slot.map]
    | some p => simp [mergeables, ih, Slot.map, mergeable]

/-- Without the operations, mergeable slots are the slots they came from. -/
theorem map_slot_mergeables (mode : Mode) (slots : List (Slot Node)) :
    (mergeables (μ := μ) mode slots).map Mergeable.slot = slots := by
  rw [mergeables_eq_map, List.map_map]
  refine (List.map_congr_left fun s _ => ?_).trans (List.map_id slots)
  obtain ⟨state, parent⟩ := s
  cases parent <;> rfl

/-- Merges a list of nodes from the left. The merge of no node is the common bottom. -/
def mergeAll (mode : Mode) : List Node → GraphM μ Node
  | [] => pure Node.empty
  | first :: rest => rest.foldlM (merge mode) first

end StackGraph
