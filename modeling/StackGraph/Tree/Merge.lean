import StackGraph.Journal
import StackGraph.Tree.Basic

/-!
# Merging trees

The merge of two trees, without identities, memos or reuse. A bottom is a wildcard or the end of a
stack, as the mode says. Otherwise both trees are lists of slots, and every slot of the left tree is
inserted into the slots of the right one: a slot of a new state goes to its place, and for a state
that is there already, what lies below is merged.

* `Tree.insertSlot` -- puts a slot into an ascending list.
* `Tree.merge` -- the merge of two trees; `Tree.mergeAll` -- the merges of a list from the left.
-/

namespace StackGraph

namespace Tree

/-- Puts a slot of the given state into an ascending list. `below` gives what lies below it, from
    what lies below the slot of this state in the list, if there is one. -/
def insertSlot (state : State) (below : Option Tree → Option Tree) :
    List (Slot Tree) → List (Slot Tree)
  | [] => [⟨state, below none⟩]
  | t :: rest =>
    if state < t.state then ⟨state, below none⟩ :: t :: rest
    else if state = t.state then ⟨state, below t.parent⟩ :: rest
    else t :: insertSlot state below rest

/-- Whether a merge ends at once, since a bottom swallows the other tree. -/
def Swallows (mode : Mode) (a b : Tree) : Prop := mode = .wildcard ∧ (a = .bottom ∨ b = .bottom)

instance (mode : Mode) (a b : Tree) : Decidable (Swallows mode a b) :=
  inferInstanceAs (Decidable (_ ∧ _))

/-- What lies below a state of both trees, when `merge` merges the left side with another tree. -/
def joinWith (p : Tree) (merge : Tree → Tree) : Option Tree → Option Tree
  | none => some p
  | some q => some (merge q)

mutual

/-- The merge of two trees. -/
def merge (mode : Mode) : Tree → Tree → Tree
  | .bottom, b =>
    if Swallows mode .bottom b then .bottom
    else ofSlots (insertSlot State.bottom (fun q => q) b.slots)
  | .frame state p, b =>
    if Swallows mode (.frame state p) b then .bottom
    else ofSlots (insertSlot state (joinWith p (merge mode p)) b.slots)
  | .choice slots, b =>
    if Swallows mode (.choice slots) b then .bottom
    else ofSlots (mergeSlots mode slots b.slots)

/-- Inserts the slots of the left list into the right list. -/
def mergeSlots (mode : Mode) : List (Slot Tree) → List (Slot Tree) → List (Slot Tree)
  | [], right => right
  | ⟨state, none⟩ :: left, right => insertSlot state (fun q => q) (mergeSlots mode left right)
  | ⟨state, some p⟩ :: left, right =>
    insertSlot state (joinWith p (merge mode p)) (mergeSlots mode left right)

end

/-- Merges a list of trees from the left. The merge of no tree is the bottom. -/
def mergeAll (mode : Mode) : List Tree → Tree
  | [] => .bottom
  | first :: rest => rest.foldl (merge mode) first

end Tree

end StackGraph
