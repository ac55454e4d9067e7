import StackGraph.Node.Basic

/-!
# The nodes below a node

All nodes that can be reached from a node, itself first, each once, in the order in which a
depth-first walk finds them. The walk keeps a list of nodes still to be looked at; a node is passed
over when it was found before.

* `Node.discover` -- the list, by a loop over the pending nodes.
* `Node.isAmong`, `Node.positionIn` -- where a list holds this very node.
* `Node.preorder` -- the walk by recursion: a node, and then what lies below each slot in turn.
-/

namespace StackGraph

namespace Node

/-- Whether a list holds this very node. -/
def isAmong (n : Node) (found : List Node) : Bool := found.any (·.same n)

/-- The position of this very node in a list, which is the length of a list without it. -/
def positionIn (n : Node) (nodes : List Node) : Nat := nodes.findIdx (·.same n)

/-- The sum of the sizes of a list of nodes, as values. -/
noncomputable def weight : List Node → Nat
  | [] => 0
  | n :: nodes => sizeOf n + weight nodes

theorem weight_cons (n : Node) (nodes : List Node) :
    weight (n :: nodes) = sizeOf n + weight nodes := rfl

theorem weight_append (xs ys : List Node) : weight (xs ++ ys) = weight xs + weight ys := by
  induction xs with
  | nil => simp [weight]
  | cons n xs ih => rw [List.cons_append, weight_cons, weight_cons, ih, Nat.add_assoc]

theorem sizeOf_pos (n : Node) : 0 < sizeOf n := by
  cases n with
  | bottom id => simp only [bottom.sizeOf_spec]; omega
  | frame id key state parent => simp only [frame.sizeOf_spec]; omega
  | choice id key slots => simp only [choice.sizeOf_spec]; omega

/-- The nodes below the slots of a list weigh less than the list. -/
theorem weight_parents_le (slots : List (Slot Node)) :
    weight (Slot.parents slots) ≤ sizeOf slots := by
  induction slots with
  | nil => simp [Slot.parents, weight]
  | cons s rest ih =>
    obtain ⟨state, parent⟩ := s
    cases parent with
    | none =>
      have e : Slot.parents (⟨state, none⟩ :: rest) = Slot.parents rest := rfl
      rw [e, List.cons.sizeOf_spec]
      omega
    | some p =>
      have e : Slot.parents (⟨state, some p⟩ :: rest) = p :: Slot.parents rest := rfl
      rw [e, weight_cons, List.cons.sizeOf_spec, Slot.mk.sizeOf_spec, Option.some.sizeOf_spec]
      omega

/-- **What lies below a node weighs less than the node.** -/
theorem weight_parents_lt (n : Node) : weight n.parents < sizeOf n := by
  cases n with
  | bottom id => exact sizeOf_pos (.bottom id)
  | frame id key state parent =>
    have e : (frame id key state parent).parents = [parent] := rfl
    rw [e, weight_cons, frame.sizeOf_spec]
    simp only [weight]
    omega
  | choice id key slots =>
    have h := weight_parents_le slots
    simp only [parents, slots_choice, choice.sizeOf_spec]
    omega

/-- Looks at the pending nodes in turn. `found` holds the nodes found so far, the latest first. -/
def discoverFrom : (pending found : List Node) → List Node
  | [], found => found.reverse
  | n :: pending, found =>
    if n.isAmong found then discoverFrom pending found
    else discoverFrom (n.parents ++ pending) (n :: found)
  termination_by pending => weight pending
  decreasing_by
    · rw [weight_cons]
      have := sizeOf_pos n
      omega
    · rw [weight_cons, weight_append]
      have := weight_parents_lt n
      omega

/-- Every node that can be reached from `n`, itself first, in depth-first order. -/
def discover (n : Node) : List Node := discoverFrom [n] []

/-- A node that is already found changes nothing; another is added before what it leads to. -/
def visit (n : Node) (below : List Node → List Node) (found : List Node) : List Node :=
  if n.isAmong found then found else below (found ++ [n])

mutual

/-- The walk by recursion: adds to `found` the node and what lies below its slots. -/
def walk : Node → List Node → List Node
  | .bottom i, found => visit (.bottom i) (fun f => f) found
  | .frame i k state parent, found => visit (.frame i k state parent) (walk parent) found
  | .choice i k slots, found => visit (.choice i k slots) (walkSlots slots) found

/-- Walks what lies below each slot, from the first slot on. -/
def walkSlots : List (Slot Node) → List Node → List Node
  | [], found => found
  | ⟨_, none⟩ :: rest, found => walkSlots rest found
  | ⟨_, some parent⟩ :: rest, found => walkSlots rest (walk parent found)

end

/-- The nodes that can be reached from `n`, as the recursive walk finds them. -/
def preorder (n : Node) : List Node := walk n []

end Node

end StackGraph
