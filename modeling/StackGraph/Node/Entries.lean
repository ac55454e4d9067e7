import StackGraph.Node.Build

/-!
# Slots by index

A walk over a node may go by index. Reading a slot is refused past the last one, and what lies below
a slot that was read is one of the parents, so that a recursion may go on there.

* `Node.Parent` -- the nodes below a node.
* `Node.slotBelow` -- the slot at an index, with the parent as a `Node.Parent`.
* `Node.entries` -- all slots, read one by one.
* `Node.slotAt_of_lt`, `Node.entries_eq` -- below the size every index is read, and so all slots are.
-/

namespace StackGraph

namespace Node

/-- The nodes below `n`. -/
abbrev Parent (n : Node) := {p : Node // p ∈ n.parents}

/-- The slot at an index is a slot of the node. -/
theorem mem_slots_of_slotAt {n : Node} {index : Nat} {s : Slot Node} (h : n.slotAt index = .ok s) :
    s ∈ n.slots := by
  cases n with
  | bottom i =>
    obtain rfl := Except.ok.inj h
    exact List.mem_cons_self
  | frame i k x p =>
    by_cases first : index = 0
    · obtain rfl := Except.ok.inj ((if_pos first).symm.trans h)
      exact List.mem_cons_self
    · exact nomatch (if_neg first).symm.trans h
  | choice i k slots =>
    simp only [slotAt] at h
    cases found : slots[index]? with
    | none => simp [found] at h
    | some t =>
      rw [found] at h
      obtain rfl := Except.ok.inj h
      exact List.mem_of_getElem? found

/-- The slot at an index, with what lies below it as one of the parents. -/
def slotBelow (n : Node) (index : Nat) : Except Failure (Slot n.Parent) :=
  match h : n.slotAt index with
  | .error failure => .error failure
  | .ok slot =>
    .ok ⟨slot.state, slot.parent.attachWith (· ∈ n.parents) fun _ hp =>
      mem_parents.mpr ⟨slot, mem_slots_of_slotAt h, hp⟩⟩

/-- All slots, each read at its index. -/
def entries (n : Node) : Except Failure (List (Slot Node)) :=
  (List.range n.size).mapM n.slotAt

variable {n : Node} {i : Nat}

/-- **Below the size every index is read.** -/
theorem slotAt_of_lt (h : i < n.slots.length) : n.slotAt i = .ok n.slots[i] := by
  cases n with
  | bottom id =>
    obtain rfl : i = 0 := Nat.lt_one_iff.mp h
    rfl
  | frame id k x p =>
    obtain rfl : i = 0 := Nat.lt_one_iff.mp h
    rfl
  | choice id k slots =>
    have found : slots[i]? = some slots[i] := List.getElem?_eq_getElem h
    simp only [slotAt, found]
    rfl

/-- Below the size the slot that is read is the one at the index. -/
theorem slotBelow_of_lt (h : i < n.slots.length) :
    ∃ s, n.slotBelow i = .ok s ∧ s.map Subtype.val = n.slots[i] := by
  have read := slotAt_of_lt h
  unfold slotBelow
  split
  · rename_i failure refused
    exact nomatch read.symm.trans refused
  · rename_i slot found
    refine ⟨_, rfl, ?_⟩
    rw [← Except.ok.inj (found.symm.trans read)]
    simp [Slot.map]

/-- **All slots are read.** -/
theorem entries_eq (n : Node) : n.entries = .ok n.slots := by
  have read : ∀ (k : Nat), k ≤ n.slots.length →
      (List.range k).mapM n.slotAt = .ok (n.slots.take k) := by
    intro k
    induction k with
    | zero => exact fun _ => rfl
    | succ k ih =>
      intro h
      rw [List.range_succ, List.mapM_append, ih (Nat.le_of_succ_le h),
        List.take_succ_eq_append_getElem h]
      simp [List.mapM_cons, slotAt_of_lt h, bind, Except.bind, pure, Except.pure]
  exact (read n.size (Nat.le_refl _)).trans (congrArg Except.ok (List.take_length))

end Node

end StackGraph
