import StackGraph.State

/-!
# Slots

A slot is a return state and what lies below it, if anything does. The kind of thing below is a
parameter: a node of the graph, a tree, a structural key, the identity of a node.

* `Slot.map` -- applies a function to what lies below.
* `Slot.IsOrphan` -- nothing lies below, though the state is not the bottom.
-/

namespace StackGraph

/-- A return state with what lies below it. -/
structure Slot (α : Type) where
  state : State
  parent : Option α
  deriving DecidableEq, Repr

namespace Slot

variable {α β γ : Type}

/-- Applies `f` to what lies below the state. -/
def map (f : α → β) (s : Slot α) : Slot β := ⟨s.state, s.parent.map f⟩

@[simp] theorem state_map (f : α → β) (s : Slot α) : (s.map f).state = s.state := rfl

@[simp] theorem parent_map (f : α → β) (s : Slot α) : (s.map f).parent = s.parent.map f := rfl

theorem map_map (g : β → γ) (f : α → β) (s : Slot α) : (s.map f).map g = s.map (g ∘ f) := by
  simp [map]

theorem map_id (s : Slot α) : s.map id = s := by
  simp [map]

/-- Nothing lies below the slot, and its state is not the bottom. -/
def IsOrphan (s : Slot α) : Prop := s.parent = none ∧ s.state ≠ State.bottom

instance (s : Slot α) : Decidable s.IsOrphan :=
  match s with
  | ⟨state, none⟩ =>
    if h : state = State.bottom then isFalse fun o => o.2 h else isTrue ⟨rfl, h⟩
  | ⟨_, some _⟩ => isFalse fun o => nomatch o.1

/-- Mapping what lies below keeps a slot an orphan, and makes none. -/
theorem isOrphan_map (f : α → β) (s : Slot α) : (s.map f).IsOrphan ↔ s.IsOrphan := by
  simp [IsOrphan]

/-- The states of a list of slots. -/
def states (slots : List (Slot α)) : List State := slots.map (·.state)

/-- What lies below the slots, in slot order. -/
def parents (slots : List (Slot α)) : List α := slots.filterMap (·.parent)

theorem mem_parents {slots : List (Slot α)} {p : α} :
    p ∈ parents slots ↔ ∃ s ∈ slots, s.parent = some p := List.mem_filterMap

end Slot

end StackGraph
