import StackGraph.Key

/-!
# Nodes of the stack graph

A node stands for a set of call stacks and shares the nodes below it with other nodes. There are
three kinds:

* a *bottom* ends every stack;
* a *frame* is one return state over one node;
* a *choice* has at least two slots, in ascending order of their return states; a slot of the
  bottom state has, as a rule, no node below.

Every node has an identity, a number of its own: two nodes are the same node when their identities
agree, and sharing is a fact about identities. Every node with slots also carries its structural
key, computed when it was made.

* `Node.empty` -- the common bottom, of identity 0. Further bottoms may exist beside it.
* `Node.slots` -- every node as a list of slots; a bottom has the one slot of the bottom state.
* `Node.parents` -- the nodes below, in slot order, and `Node.sizeOf_lt_of_mem_parents`: each of
  them is a smaller value, so that walks downwards end.
-/

namespace StackGraph

/-- A node of the stack graph. -/
inductive Node where
  /-- The end of a stack. -/
  | bottom (id : Nat)
  /-- One return state over one node. -/
  | frame (id : Nat) (key : Key) (state : State) (parent : Node)
  /-- Several return states, each over a node of its own. -/
  | choice (id : Nat) (key : Key) (slots : List (Slot Node))

namespace Node

/-- The common bottom. -/
def empty : Node := .bottom 0

instance : Inhabited Node := ⟨empty⟩

/-- The identity of a node. -/
def id : Node → Nat
  | .bottom id => id
  | .frame id _ _ _ => id
  | .choice id _ _ => id

/-- The structural key of a node. -/
def key : Node → Key
  | .bottom _ => Key.bottom
  | .frame _ key _ _ => key
  | .choice _ key _ => key

/-- The slots of a node, in ascending order. -/
def slots : Node → List (Slot Node)
  | .bottom _ => [⟨State.bottom, none⟩]
  | .frame _ _ state parent => [⟨state, some parent⟩]
  | .choice _ _ slots => slots

/-- The three kinds of node. -/
inductive Kind where
  | bottom
  | frame
  | choice
  deriving DecidableEq, Repr

/-- The kind of a node. -/
def kind : Node → Kind
  | .bottom _ => .bottom
  | .frame _ _ _ _ => .frame
  | .choice _ _ _ => .choice

/-- Whether the node is a bottom. -/
def isBottom : Node → Bool
  | .bottom _ => true
  | _ => false

/-- Whether two nodes are the same node. -/
def same (a b : Node) : Bool := a.id == b.id

/-- The number of slots. -/
def size (n : Node) : Nat := n.slots.length

/-- The return states, in slot order. -/
def states (n : Node) : List State := Slot.states n.slots

/-- The nodes below, in slot order. -/
def parents (n : Node) : List Node := Slot.parents n.slots

/-- Whether one of the stacks may end here: the last slot, which sorts highest, is of the bottom
    state. -/
def endsHere (n : Node) : Bool := n.slots.getLast?.any (·.state == State.bottom)

@[simp] theorem same_iff {a b : Node} : a.same b = true ↔ a.id = b.id := by
  simp [same]

theorem same_refl (a : Node) : a.same a = true := by simp

theorem same_comm (a b : Node) : a.same b = b.same a := by
  rw [Bool.eq_iff_iff, same_iff, same_iff, eq_comm]

@[simp] theorem slots_bottom (id : Nat) : (bottom id).slots = [⟨State.bottom, none⟩] := rfl

@[simp] theorem slots_frame (id : Nat) (key : Key) (state : State) (parent : Node) :
    (frame id key state parent).slots = [⟨state, some parent⟩] := rfl

@[simp] theorem slots_choice (id : Nat) (key : Key) (slots : List (Slot Node)) :
    (choice id key slots).slots = slots := rfl

theorem mem_parents {n p : Node} : p ∈ n.parents ↔ ∃ s ∈ n.slots, s.parent = some p :=
  Slot.mem_parents

/-- What lies below a slot of a node is a smaller value than the node. -/
theorem sizeOf_lt_of_mem_slots {n p : Node} {s : Slot Node} (hs : s ∈ n.slots)
    (hp : s.parent = some p) : sizeOf p < sizeOf n := by
  cases n with
  | bottom id =>
    simp only [slots_bottom, List.mem_singleton] at hs
    subst hs
    simp at hp
  | frame id key state parent =>
    simp only [slots_frame, List.mem_singleton] at hs
    subst hs
    simp only [Option.some.injEq] at hp
    subst hp
    simp only [frame.sizeOf_spec]
    omega
  | choice id key slots =>
    have h := List.sizeOf_lt_of_mem hs
    obtain ⟨state, parent⟩ := s
    simp only at hp
    subst hp
    simp only [slots_choice, Slot.mk.sizeOf_spec, Option.some.sizeOf_spec] at h
    simp only [choice.sizeOf_spec]
    omega

/-- **A node below is a smaller value**, so every walk downwards ends. -/
theorem sizeOf_lt_of_mem_parents {n p : Node} (h : p ∈ n.parents) : sizeOf p < sizeOf n := by
  obtain ⟨s, hs, hp⟩ := mem_parents.mp h
  exact sizeOf_lt_of_mem_slots hs hp

end Node

end StackGraph
