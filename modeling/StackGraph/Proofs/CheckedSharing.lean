import StackGraph.Pool.Checked
import StackGraph.Proofs.FineSharing

/-!
# Sharing by index is sharing

On every node, with every pool and every trail, the sharing by index does what the sharing does: it
makes the same nodes, leaves the same pool and trail, and the same journal. So no assumption that it
checks is ever broken where the sharing succeeds.

* `Maintains.shareSlots_shape` -- shared slots have the states of the slots, and something below where
  these have;
* `Checked.shareFrom_copied`, `Checked.shareFrom_none` -- **the cursor shares the rest of the slots**,
  once something was replaced, and before that;
* `Checked.settle_eq` -- one node;
* `Checked.share_eq` -- **both ways of sharing are one**, by induction on the node.
-/

namespace StackGraph

open Node

variable {n : Node}

/-! ## 1. Shared slots -/

section Slots

variable {s : Slot Node} {p : Node}

theorem shareSlots_cons_none (h : s.parent = none) (rest : List (Slot Node)) :
    shareSlots (s :: rest) = (s :: ·) <$> shareSlots rest := by
  obtain ⟨x, parent⟩ := s
  obtain rfl : parent = none := h
  exact bind_pure_comp _ _

theorem shareSlots_cons_some (h : s.parent = some p) (rest : List (Slot Node)) :
    shareSlots (s :: rest) =
      share p >>= fun shared => (⟨s.state, some (replacement p shared)⟩ :: ·) <$> shareSlots rest := by
  obtain ⟨x, parent⟩ := s
  obtain rfl : parent = some p := h
  exact congrArg (share p >>= ·) (funext fun _ => bind_pure_comp _ _)

end Slots

/-- Shared slots have the states of the slots, and something below where these have. -/
theorem Maintains.shareSlots_shape (slots : List (Slot Node)) :
    Maintains True (fun _ => True) (StackGraph.shareSlots slots)
      fun shared => Slot.shape shared = Slot.shape slots := by
  induction slots with
  | nil => exact .pure rfl
  | cons s rest ih =>
    cases e : s.parent with
    | none =>
      rw [shareSlots_cons_none e]
      exact .map (ih.weaken fun shared h => congrArg (List.cons _) h)
    | some p =>
      have head : s.map (fun _ => ()) = ⟨s.state, some ()⟩ := congrArg (Slot.mk s.state) (e ▸ rfl)
      rw [shareSlots_cons_some e]
      refine anything.bind fun c _ => .map (ih.weaken fun shared h => ?_)
      exact congrArg₂ List.cons head.symm h

/-- A node that is no bottom is shared by its slots. -/
theorem share_eq_slots (h : n.isBottom = false) :
    share n = recallOr n (shareSlots n.slots >>= settle n) := by
  cases n with
  | bottom i => cases h
  | choice i k slots => rfl
  | frame i k x p =>
    rw [slots_frame, shareSlots_cons_some rfl, bind_assoc]
    rfl

namespace Checked

/-! ## 2. The cursor -/

/-- What lies below the slots. -/
def below (slots : List (Slot Node)) : List (Option Node) := slots.map (·.parent)

/-- What was written when slots were shared, behind what stands before them: nothing where each of them
    leads to the same node as before. -/
def written (before : List (Option Node)) (slots shared : List (Slot Node)) :
    Option (List (Option Node)) :=
  if shared.map (Slot.map Node.id) = slots.map (Slot.map Node.id) then none
  else some (before ++ below shared)

theorem written_cons_self (before : List (Option Node)) (s : Slot Node)
    (slots shared : List (Slot Node)) :
    written before (s :: slots) (s :: shared) = written (before ++ [s.parent]) slots shared := by
  simp [written, below]

theorem written_cons_other (before : List (Option Node)) {s t : Slot Node}
    (h : t.map Node.id ≠ s.map Node.id) (slots shared : List (Slot Node)) :
    written before (s :: slots) (t :: shared) = some (before ++ t.parent :: below shared) := by
  simp [written, below, h]

variable {i : Nat}

theorem below_drop (h : i < n.slots.length) :
    below (n.slots.drop i) = n.slots[i].parent :: below (n.slots.drop (i + 1)) :=
  congrArg below (List.drop_eq_getElem_cons h)

theorem length_below_take (h : i < n.slots.length) : (below (n.slots.take i)).length = i := by
  rw [below, List.length_map, List.length_take, Nat.min_eq_left (Nat.le_of_lt h)]

/-- What was copied before stays when the next place is written. -/
theorem exchange_copied {before : List (Option Node)} (hb : before.length = i) (old : Option Node)
    (rest : List (Option Node)) (shared : Node) :
    exchange n (some (before ++ old :: rest)) i shared = pure (before ++ some shared :: rest) := by
  have write : writeAt (before ++ old :: rest) i shared = .ok (before ++ some shared :: rest) := by
    simp [writeAt, ← hb]
  show GraphM.lift (writeAt (before ++ old :: rest) i shared) = _
  rw [write]
  rfl

/-- The first place that is written makes the copy. -/
theorem exchange_none (h : i < n.slots.length) (shared : Node) :
    exchange n none i shared =
      pure (below (n.slots.take i) ++ some shared :: below (n.slots.drop (i + 1))) := by
  have parts : below n.slots =
      below (n.slots.take i) ++ n.slots[i].parent :: below (n.slots.drop (i + 1)) := by
    rw [← below_drop h, below, below, below, ← List.map_append, List.take_append_drop]
  have first : exchange n none i shared = exchange n (some (below n.slots)) i shared := by
    unfold exchange
    rw [entries_eq]
    rfl
  rw [first, parts, exchange_copied (length_below_take h)]

variable {share : n.Parent → GraphM Sharing Node} {copy : Option (List (Option Node))}

/-! The cursor at one index. -/

theorem shareFrom_end (h : n.slots.length ≤ i) : shareFrom n share i copy = pure copy := by
  unfold shareFrom
  exact if_neg (Nat.not_lt_of_le h)

theorem shareFrom_skip (h : i < n.slots.length) (e : n.slots[i].parent = none) :
    shareFrom n share i copy = shareFrom n share (i + 1) copy := by
  obtain ⟨⟨x, parent⟩, read, es⟩ := slotBelow_of_lt h
  rw [← es] at e
  obtain rfl : parent = none := Option.map_eq_none_iff.mp e
  have inside : i < n.size := h
  conv_lhs => unfold shareFrom
  rw [if_pos inside, read]
  rfl

theorem shareFrom_parent (h : i < n.slots.length) {p : Node} (e : n.slots[i].parent = some p)
    (hs : ∀ p, share p = StackGraph.share p.1) :
    shareFrom n share i copy = StackGraph.share p >>= fun shared =>
      if shared.same p then shareFrom n share (i + 1) copy
      else exchange n copy i shared >>= fun parents => shareFrom n share (i + 1) (some parents) := by
  obtain ⟨⟨x, parent⟩, read, es⟩ := slotBelow_of_lt h
  rw [← es] at e
  obtain ⟨q, rfl, rfl⟩ := Option.map_eq_some_iff.mp e
  have inside : i < n.size := h
  conv_lhs => unfold shareFrom
  rw [if_pos inside, read, ← hs q]
  rfl

/-- **Once the list is copied**, what became of the rest is written behind what was written so far. -/
theorem shareFrom_copied (hs : ∀ p, share p = StackGraph.share p.1) {i : Nat}
    {before : List (Option Node)} (hb : before.length = i) :
    shareFrom n share i (some (before ++ below (n.slots.drop i))) =
      (fun shared => some (before ++ below shared)) <$> shareSlots (n.slots.drop i) := by
  by_cases h : i < n.slots.length
  · have next : ∀ o, shareFrom n share (i + 1)
        (some (before ++ o :: below (n.slots.drop (i + 1)))) =
          (fun shared => some (before ++ o :: below shared)) <$>
            shareSlots (n.slots.drop (i + 1)) := fun o => by
      have longer : (before ++ [o]).length = i + 1 := by simp [hb]
      have written := shareFrom_copied hs longer
      simpa only [List.append_assoc, List.singleton_append] using written
    rw [below_drop h, List.drop_eq_getElem_cons h]
    cases e : n.slots[i].parent with
    | none =>
      rw [shareFrom_skip h e, next none, shareSlots_cons_none e, Functor.map_map]
      simp only [below, List.map_cons, e]
    | some p =>
      rw [shareFrom_parent h e hs, shareSlots_cons_some e, map_bind]
      refine congrArg _ (funext fun shared => ?_)
      rw [Functor.map_map, exchange_copied hb, pure_bind]
      by_cases same : shared.same p = true
      · rw [if_pos same, replacement, if_pos same]
        exact next (some p)
      · rw [if_neg same, replacement, if_neg same]
        exact next (some shared)
  · have done : n.slots.drop i = [] := List.drop_eq_nil_of_le (Nat.le_of_not_lt h)
    rw [shareFrom_end (Nat.le_of_not_lt h), done]
    rfl
termination_by n.slots.length - i

/-- **Before anything is replaced**, the list is copied for the first slot that leads to another node
    than before, and not at all when there is none. -/
theorem shareFrom_none (hs : ∀ p, share p = StackGraph.share p.1) (i : Nat) :
    shareFrom n share i none =
      written (below (n.slots.take i)) (n.slots.drop i) <$> shareSlots (n.slots.drop i) := by
  by_cases h : i < n.slots.length
  · have next := shareFrom_none hs (i + 1)
    have taken : below (n.slots.take (i + 1)) = below (n.slots.take i) ++ [n.slots[i].parent] := by
      rw [List.take_succ_eq_append_getElem h]
      exact List.map_append
    rw [taken] at next
    rw [List.drop_eq_getElem_cons h]
    cases e : n.slots[i].parent with
    | none =>
      rw [shareFrom_skip h e, next, shareSlots_cons_none e, Functor.map_map]
      simp only [written_cons_self]
    | some p =>
      rw [shareFrom_parent h e hs, shareSlots_cons_some e, map_bind]
      refine congrArg _ (funext fun shared => ?_)
      rw [Functor.map_map]
      by_cases same : shared.same p = true
      · have self : (⟨n.slots[i].state, some p⟩ : Slot Node) = n.slots[i] := by rw [← e]
        rw [if_pos same, replacement, if_pos same, next, self]
        simp only [written_cons_self]
      · have other : Slot.map Node.id ⟨n.slots[i].state, some shared⟩ ≠ n.slots[i].map Node.id := by
          intro ids
          have ids := congrArg Slot.parent ids
          rw [Slot.parent_map, Slot.parent_map, e] at ids
          exact same (same_iff.mpr (Option.some.inj ids))
        -- from here on the list is a copy, in which the new node was written
        have longer : (below (n.slots.take i) ++ [some shared]).length = i + 1 := by
          simp [length_below_take h]
        have copied := shareFrom_copied hs longer
        simp only [List.append_assoc, List.singleton_append] at copied
        rw [if_neg same, replacement, if_neg same, exchange_none h, pure_bind, copied]
        simp only [written_cons_other _ other]
  · have done : n.slots.drop i = [] := List.drop_eq_nil_of_le (Nat.le_of_not_lt h)
    rw [shareFrom_end (Nat.le_of_not_lt h), done]
    rfl
termination_by n.slots.length - i

/-! ## 3. A whole ancestry -/

/-- A node of other slots of the same shape is rebuilt from them. -/
theorem rebuild_eq (h : n.isBottom = false) {shared : List (Slot Node)}
    (shape : Slot.shape shared = Slot.shape n.slots) :
    rebuild n (below shared) = Node.ofSlots shared := by
  cases n with
  | bottom i => cases h
  | choice i k slots =>
    have states : Slot.states slots = Slot.states shared := by
      rw [← Slot.states_map (fun _ => ()), ← Slot.states_map (fun _ => ()) shared]
      exact congrArg Slot.states shape.symm
    rw [rebuild, states]
    exact ofLists_slots shared
  | frame i k x p =>
    obtain ⟨⟨y, parent⟩, rfl, same⟩ := List.map_eq_singleton_iff.mp shape
    obtain ⟨states, under⟩ := Slot.mk.inj same
    obtain rfl : y = x := states
    obtain ⟨c, rfl, _⟩ := Option.map_eq_some_iff.mp under
    have fault : fault? [⟨y, some c⟩] = none :=
      fault?_eq_none_iff.mpr ⟨by simp, by simp [Slot.states], by simp [Slot.IsOrphan]⟩
    rw [Node.ofSlots, fault]
    rfl

theorem settle_eq (h : n.isBottom = false) {shared : List (Slot Node)}
    (shape : Slot.shape shared = Slot.shape n.slots) :
    settle n (written [] n.slots shared) = StackGraph.settle n shared := by
  unfold written StackGraph.settle
  split
  · rfl
  · rw [settle, List.nil_append, rebuild_eq h shape]

/-- **The sharing by index is the sharing**, with every pool and every trail. -/
theorem share_eq (n : Node) : Checked.share n = StackGraph.share n := by
  induction n using Node.induction with
  | step n ih =>
    unfold Checked.share
    cases bottom : n.isBottom with
    | true =>
      cases n with
      | bottom i => rfl
      | frame i k x p => cases bottom
      | choice i k slots => cases bottom
    | false =>
      have slots : shareFrom n (fun p => Checked.share p.1) 0 none = _ :=
        shareFrom_none (fun p => ih p.1 p.2) 0
      rw [List.take_zero, List.drop_zero] at slots
      rw [if_neg nofun, share_eq_slots bottom, slots, bind_map_left]
      refine congrArg _ (Maintains.bind_congr (Maintains.shareSlots_shape _) fun shared shape => ?_)
      exact settle_eq bottom shape

end Checked

end StackGraph
