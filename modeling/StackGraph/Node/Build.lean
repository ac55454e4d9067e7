import StackGraph.Arena

/-!
# Making nodes

Nodes are made from a frame over a node or from a list of slots. A list of slots is checked before
anything is made: it is not empty, its states ascend strictly, and only the bottom state may have
nothing below. A list of one slot makes a frame, or the common bottom.

* `Node.push` -- one state over a node; the bottom state over a bottom is the common bottom.
* `Node.ofSlot` -- a node from one slot.
* `Node.fault?` -- the first fault of a list of slots, and `Node.fault?_eq_none_iff`: which lists
  have none.
* `Node.ofSlots`, `Node.ofLists` -- a node from its slots; `Node.ofSlots_run_of_two_le` says what
  comes of several.
* `Node.chain`, `Node.tower` -- many frames, and many levels of a choice over one shared node.
-/

namespace StackGraph

namespace Node

variable {τ : Type}

/-- Makes a bottom beside the common one. -/
def anotherBottom : GraphM τ Node := do
  return .bottom (← GraphM.fresh)

/-- One state over a node. The bottom state ends a stack, so it goes over a bottom only, and gives
    the common bottom. -/
def push (below : Node) (state : State) : GraphM τ Node :=
  if state = State.bottom then
    if below.isBottom then pure empty else throw (.bottomOverFrames below)
  else do
    return .frame (← GraphM.fresh) (Key.frame state below.key) state below

/-- A node of one slot. A slot with nothing below is the common bottom, and only the bottom state may
    have nothing below. -/
def ofSlot : Slot Node → GraphM τ Node
  | ⟨state, none⟩ => if state = State.bottom then pure empty else throw (.parentless state)
  | ⟨state, some below⟩ => push below state

/-- The slot of the bottom state is the common bottom. -/
theorem ofSlot_bottom : ofSlot (τ := τ) ⟨State.bottom, none⟩ = pure empty := by
  simp [ofSlot]

/-- The first fault of a list of slots, if it has one. -/
def fault? (slots : List (Slot Node)) : Option Failure :=
  if slots = [] then some .noSlots
  else if ¬ (Slot.states slots).Pairwise (· < ·) then some (.unsorted (Slot.states slots))
  else if ∃ s ∈ slots, s.IsOrphan then some .orphanSlot
  else none

/-- **The lists without a fault**: not empty, strictly ascending, and nothing but the bottom state
    without a node below. -/
theorem fault?_eq_none_iff {slots : List (Slot Node)} :
    fault? slots = none ↔
      slots ≠ [] ∧ (Slot.states slots).Pairwise (· < ·) ∧ ∀ s ∈ slots, ¬ s.IsOrphan := by
  unfold fault?
  split
  · simp_all
  · split
    · simp_all
    · split
      · simp_all
      · simp_all

/-- A node of slots that were checked. -/
def ofCheckedSlots : List (Slot Node) → GraphM τ Node
  | [slot] => ofSlot slot
  | slots => do
    return .choice (← GraphM.fresh) (Key.choice (slots.map (Slot.map key))) slots

/-- A node from its slots. -/
def ofSlots (slots : List (Slot Node)) : GraphM τ Node :=
  match fault? slots with
  | some failure => throw failure
  | none => ofCheckedSlots slots

/-- **Several slots without a fault make a choice between them**, of a fresh identity. -/
theorem ofSlots_run_of_two_le {slots : List (Slot Node)} (h : fault? slots = none)
    (two : 2 ≤ slots.length) (s : Arena τ) :
    ofSlots slots s =
      .ok (.choice s.next (Key.choice (slots.map (Slot.map key))) slots)
        { s with next := s.next + 1 } := by
  match slots, two with
  | _ :: _ :: _, _ =>
    unfold ofSlots
    rw [h]
    rfl

/-- A frame of a state other than the bottom is made with a fresh identity. -/
theorem push_run {state : State} (h : state ≠ State.bottom) (below : Node) (s : Arena τ) :
    push below state s =
      .ok (.frame s.next (Key.frame state below.key) state below) { s with next := s.next + 1 } := by
  unfold push
  rw [if_neg h]
  rfl

/-- A node from its states and, in a second list, what lies below each of them. -/
def ofLists (states : List State) (parents : List (Option Node)) : GraphM τ Node :=
  if states.length = parents.length then
    ofSlots (List.zipWith Slot.mk states parents)
  else
    throw (.lengthsDiffer states.length parents.length)

/-- Slots in two lists make the node that they make in one. -/
theorem ofLists_slots (slots : List (Slot Node)) :
    ofLists (τ := τ) (Slot.states slots) (slots.map (·.parent)) = ofSlots slots := by
  have lengths : (Slot.states slots).length = (slots.map (·.parent)).length := by
    simp [Slot.states]
  have zipped : List.zipWith Slot.mk (Slot.states slots) (slots.map (·.parent)) = slots := by
    simp [Slot.states, List.zipWith_map]
  exact (if_pos lengths).trans (congrArg ofSlots zipped)

/-- Pushes the states one over the other, the first one deepest. -/
def chain (base : Node) (states : List State) : GraphM τ Node :=
  states.foldlM push base

/-- As many levels of a choice as `depth` says: all slots of a level share the level below. -/
def tower (base : Node) (states : List State) : (depth : Nat) → GraphM τ Node
  | 0 => pure base
  | depth + 1 => do
    let below ← ofLists states (states.map fun _ => some base)
    tower below states depth

/-- The slot of a node at an index. A bottom has its one slot at every index. -/
def slotAt : Node → Nat → Except Failure (Slot Node)
  | .bottom _, _ => .ok ⟨State.bottom, none⟩
  | .frame _ _ state parent, index =>
    if index = 0 then .ok ⟨state, some parent⟩ else .error (.frameIndex index)
  | .choice _ _ slots, index =>
    match slots[index]? with
    | some slot => .ok slot
    | none => .error (.slotIndex slots.length index)

end Node

end StackGraph
