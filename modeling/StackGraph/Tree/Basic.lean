import StackGraph.Node.Basic

/-!
# Trees

The tree of a node forgets identities, keys and sharing, and keeps the structure: what a node would
be if nothing were shared. Structural facts about nodes are facts about their trees.

* `Tree` -- the trees; `Tree.slots` reads each as a list of slots.
* `Node.tree` -- the tree of a node.
* `Tree.Proper` -- the trees that nodes have: no frame of the bottom state, at least two slots in a
  choice, strictly ascending states, and nothing but the bottom state without a tree below.
* `Tree.Plain` -- moreover, nothing lies below a slot of the bottom state.
-/

namespace StackGraph

/-- The structure of a node without sharing. -/
inductive Tree where
  /-- The end of a stack. -/
  | bottom
  /-- One return state over one tree. -/
  | frame (state : State) (parent : Tree)
  /-- Several return states, each over a tree of its own. -/
  | choice (slots : List (Slot Tree))

namespace Tree

instance : Inhabited Tree := ⟨bottom⟩

/-- The slots of a tree. A bottom has the one slot of the bottom state. -/
def slots : Tree → List (Slot Tree)
  | .bottom => [⟨State.bottom, none⟩]
  | .frame state parent => [⟨state, some parent⟩]
  | .choice slots => slots

/-- A tree from its slots. One slot is a frame, or a bottom when its state is the bottom. -/
def ofSlots : List (Slot Tree) → Tree
  | [⟨_, none⟩] => .bottom
  | [⟨state, some parent⟩] => if state = State.bottom then .bottom else .frame state parent
  | slots => .choice slots

/-! ## 1. Equality is decidable -/

mutual

/-- Decides whether two trees are equal. -/
def decideEq : (a b : Tree) → Decidable (a = b)
  | .bottom, .bottom => isTrue rfl
  | .frame s p, .frame t q =>
    if h : s = t then
      match decideEq p q with
      | isTrue h' => isTrue (by rw [h, h'])
      | isFalse h' => isFalse fun e => h' (Tree.frame.inj e).2
    else isFalse fun e => h (Tree.frame.inj e).1
  | .choice ss, .choice ts =>
    match decideEqSlots ss ts with
    | isTrue h => isTrue (by rw [h])
    | isFalse h => isFalse fun e => h (Tree.choice.inj e)
  | .bottom, .frame _ _ => isFalse nofun
  | .bottom, .choice _ => isFalse nofun
  | .frame _ _, .bottom => isFalse nofun
  | .frame _ _, .choice _ => isFalse nofun
  | .choice _, .bottom => isFalse nofun
  | .choice _, .frame _ _ => isFalse nofun

/-- Decides whether two lists of slots are equal. -/
def decideEqSlots : (ss ts : List (Slot Tree)) → Decidable (ss = ts)
  | [], [] => isTrue rfl
  | ⟨s, none⟩ :: ss, ⟨t, none⟩ :: ts =>
    if h : s = t then
      match decideEqSlots ss ts with
      | isTrue h' => isTrue (by rw [h, h'])
      | isFalse h' => isFalse fun e => h' (List.cons.inj e).2
    else isFalse fun e => h (congrArg Slot.state (List.cons.inj e).1)
  | ⟨s, some p⟩ :: ss, ⟨t, some q⟩ :: ts =>
    if h : s = t then
      match decideEq p q, decideEqSlots ss ts with
      | isTrue h₁, isTrue h₂ => isTrue (by rw [h, h₁, h₂])
      | isFalse h₁, _ =>
        isFalse fun e => h₁ (Option.some.inj (congrArg Slot.parent (List.cons.inj e).1))
      | _, isFalse h₂ => isFalse fun e => h₂ (List.cons.inj e).2
    else isFalse fun e => h (congrArg Slot.state (List.cons.inj e).1)
  | [], _ :: _ => isFalse nofun
  | _ :: _, [] => isFalse nofun
  | ⟨_, none⟩ :: _, ⟨_, some _⟩ :: _ => isFalse fun e =>
    Option.noConfusion rfl (heq_of_eq (congrArg Slot.parent (List.cons.inj e).1))
  | ⟨_, some _⟩ :: _, ⟨_, none⟩ :: _ => isFalse fun e =>
    Option.noConfusion rfl (heq_of_eq (congrArg Slot.parent (List.cons.inj e).1))

end

instance : DecidableEq Tree := decideEq

/-! ## 2. The shapes of trees -/

/-- What a list of slots of a choice satisfies, whatever lies below. -/
def ProperSlots {α : Type} (slots : List (Slot α)) : Prop :=
  2 ≤ slots.length ∧ (Slot.states slots).Pairwise (· < ·) ∧ ∀ s ∈ slots, ¬ s.IsOrphan

/-- The trees that nodes have. -/
inductive Proper : Tree → Prop where
  | bottom : Proper .bottom
  | frame {state : State} {parent : Tree} (not_bottom : state ≠ State.bottom)
      (below : Proper parent) : Proper (.frame state parent)
  | choice {slots : List (Slot Tree)} (proper : ProperSlots slots)
      (below : ∀ s ∈ slots, ∀ p, s.parent = some p → Proper p) : Proper (.choice slots)

/-- The trees in which nothing lies below a slot of the bottom state. -/
inductive Plain : Tree → Prop where
  | bottom : Plain .bottom
  | frame {state : State} {parent : Tree} (below : Plain parent) : Plain (.frame state parent)
  | choice {slots : List (Slot Tree)}
      (ends : ∀ s ∈ slots, s.state = State.bottom → s.parent = none)
      (below : ∀ s ∈ slots, ∀ p, s.parent = some p → Plain p) : Plain (.choice slots)

end Tree

namespace Node

mutual

/-- The tree of a node. -/
def tree : Node → Tree
  | .bottom _ => .bottom
  | .frame _ _ state parent => .frame state (tree parent)
  | .choice _ _ slots => .choice (treeSlots slots)

/-- The slots with the trees of what lies below them. -/
def treeSlots : List (Slot Node) → List (Slot Tree)
  | [] => []
  | ⟨state, none⟩ :: rest => ⟨state, none⟩ :: treeSlots rest
  | ⟨state, some parent⟩ :: rest => ⟨state, some (tree parent)⟩ :: treeSlots rest

end

/-- The slots of the tree are the slots of the node with the tree below each. -/
theorem treeSlots_eq_map (slots : List (Slot Node)) : treeSlots slots = slots.map (Slot.map tree) := by
  induction slots with
  | nil => rfl
  | cons s rest ih =>
    obtain ⟨state, parent⟩ := s
    cases parent <;> simp [treeSlots, ih, Slot.map]

/-- **The slots of the tree of a node are the trees of its slots.** -/
theorem slots_tree (n : Node) : n.tree.slots = n.slots.map (Slot.map tree) := by
  cases n with
  | bottom id => rfl
  | frame id key state parent => rfl
  | choice id key slots => exact treeSlots_eq_map slots

end Node

end StackGraph
