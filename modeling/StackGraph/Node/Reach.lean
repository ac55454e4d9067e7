import StackGraph.Node.Build
import StackGraph.Node.Discover

/-!
# What can be reached, and what every node satisfies

* `Node.Reaches` -- one node can be reached from another by going to nodes below.
* `Node.Sound` -- what the operations guarantee of a single node: no frame of the bottom state, at
  least two slots in a choice, strictly ascending states, nothing but the bottom state without a
  node below, and the stored key is the key of what the node holds.
* `Node.WellFormed` -- everything that can be reached is sound.
-/

namespace StackGraph

namespace Node

/-- `Reaches n m`: the node `m` is `n` or lies below it, at any depth. -/
inductive Reaches : Node → Node → Prop where
  | refl (n : Node) : Reaches n n
  | step {n p m : Node} (h : p ∈ n.parents) (r : Reaches p m) : Reaches n m

/-- What lies below something reached is reached. -/
theorem Reaches.trans {a b c : Node} (h : Reaches a b) (r : Reaches b c) : Reaches a c := by
  induction h with
  | refl n => exact r
  | step hp _ ih => exact .step hp (ih r)

/-- What lies below something reached is reached, too. -/
theorem Reaches.parent {n m p : Node} (h : Reaches n m) (hp : p ∈ m.parents) : Reaches n p :=
  h.trans (.step hp (.refl p))

/-- What a single node satisfies. -/
def Sound : Node → Prop
  | .bottom _ => True
  | .frame _ key state parent => state ≠ State.bottom ∧ key = Key.frame state parent.key
  | .choice _ key slots =>
    2 ≤ slots.length ∧ fault? slots = none ∧ key = Key.choice (slots.map (Slot.map Node.key))

/-- Everything that can be reached is sound. -/
def WellFormed (n : Node) : Prop := ∀ m, Reaches n m → m.Sound

/-- What lies below a well-formed node is well-formed. -/
theorem WellFormed.parent {n p : Node} (h : n.WellFormed) (hp : p ∈ n.parents) : p.WellFormed :=
  fun m r => h m (.step hp r)

/-- A node is well-formed when it is sound and what lies below it is well-formed. -/
theorem wellFormed_iff {n : Node} :
    n.WellFormed ↔ n.Sound ∧ ∀ p ∈ n.parents, p.WellFormed := by
  constructor
  · exact fun h => ⟨h n (.refl n), fun p hp => h.parent hp⟩
  · rintro ⟨hn, hp⟩ m r
    cases r with
    | refl => exact hn
    | step h r => exact hp _ h m r

end Node

end StackGraph
