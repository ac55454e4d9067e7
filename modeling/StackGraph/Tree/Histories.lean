import StackGraph.Tree.Basic

/-!
# The call histories of a node

A node stands for a set of call histories. A history is the list of return states of one stack, the
top first. A bottom stands for the empty history, and a slot for its state on top of every history
of what lies below it; a slot of the bottom state stands for the empty history, and so does a slot
with nothing below.

* `Tree.histories`, `Node.histories` -- the histories, as a list.
* `Covers` -- one history covers another when it is what the other begins with. Where a bottom
  stands for any stack, a history stands for all that it covers.
-/

namespace StackGraph

/-- The return states of one call stack, the top first. -/
abbrev History := List State

/-- The histories of a slot, of which `below` are the histories of what lies below it. -/
def Slot.histories (state : State) (below : List History) : List History :=
  if state = State.bottom then [[]] else below.map (state :: ·)

namespace Tree

mutual

/-- The histories of a tree. -/
def histories : Tree → List History
  | .bottom => [[]]
  | .frame state parent => Slot.histories state (histories parent)
  | .choice slots => historiesOfSlots slots

/-- The histories of a list of slots. -/
def historiesOfSlots : List (Slot Tree) → List History
  | [] => []
  | ⟨_, none⟩ :: rest => [] :: historiesOfSlots rest
  | ⟨state, some parent⟩ :: rest =>
    Slot.histories state (histories parent) ++ historiesOfSlots rest

end

end Tree

/-- The call histories that a node stands for. -/
def Node.histories (n : Node) : List History := n.tree.histories

/-- Whether `t` covers `s`: the history `s` begins with `t`. -/
def Covers (t s : History) : Prop := t <+: s

instance (t s : History) : Decidable (Covers t s) := inferInstanceAs (Decidable (t <+: s))

/-- Every history covers itself. -/
theorem Covers.refl (s : History) : Covers s s := List.prefix_rfl

/-- The empty history covers every history. -/
theorem Covers.nil (s : History) : Covers [] s := List.nil_prefix

/-- Covering goes on below a common top. -/
theorem covers_cons_iff {x : State} {t s : History} : Covers (x :: t) (x :: s) ↔ Covers t s := by
  simp [Covers]

end StackGraph
