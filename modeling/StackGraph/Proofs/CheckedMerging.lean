import StackGraph.Merge.Checked
import StackGraph.Proofs.FineMerging
import StackGraph.Proofs.Weaving

/-!
# The merge by index is the merge

On well-formed nodes the merge by index does what the merge does, whatever the memo answers: it makes
the same nodes, asks and tells the memo the same, and leaves the same journal. So no assumption that
it checks is ever broken where the merge succeeds.

* `Maintains.weave_length` -- a union has as many slots as either side;
* `Checked.weaveFrom_eq` -- **the cursors weave the rest of both lists**;
* `Checked.joinSlots_eq`, `Checked.joinRoots_eq`, `Checked.joinFrames_eq` -- the three ways to merge;
* `Checked.merge_eq` -- **both merges are one**, by induction on the left node.
-/

namespace StackGraph

open Node

variable {μ : Type} {mode : Mode} {a b : Node}

/-! ## 1. Weaving -/

namespace Maintains

theorem place_length {s : Slot (Mergeable μ)} {k : Nat}
    {rest : List (Slot Node) → GraphM μ (List (Slot Node))} {right : List (Slot Node)}
    (h : ∀ right, Maintains True (fun _ => True) (rest right)
      fun woven => k ≤ woven.length ∧ right.length ≤ woven.length) :
    Maintains True (fun _ => True) (StackGraph.place s rest right)
      fun woven => k + 1 ≤ woven.length ∧ right.length ≤ woven.length := by
  induction right with
  | nil =>
    refine .map ((h []).weaken fun woven hw => ⟨?_, Nat.zero_le _⟩)
    exact Nat.succ_le_succ hw.1
  | cons t right ih =>
    unfold StackGraph.place
    split
    · refine .map (ih.weaken fun woven hw => ⟨?_, Nat.succ_le_succ hw.2⟩)
      exact Nat.le_succ_of_le hw.1
    · split
      · refine anything.bind fun parent _ => .map ((h right).weaken fun woven hw => ?_)
        exact ⟨Nat.succ_le_succ hw.1, Nat.succ_le_succ hw.2⟩
      · refine .map ((h (t :: right)).weaken fun woven hw => ⟨Nat.succ_le_succ hw.1, ?_⟩)
        exact Nat.le_succ_of_le hw.2

/-- A union has as many slots as either side, or more. -/
theorem weave_length (left : List (Slot (Mergeable μ))) (right : List (Slot Node)) :
    Maintains True (fun _ => True) (StackGraph.weave left right)
      fun woven => left.length ≤ woven.length ∧ right.length ≤ woven.length := by
  induction left generalizing right with
  | nil => exact .pure ⟨Nat.zero_le _, Nat.le_refl _⟩
  | cons s left ih => exact place_length ih

end Maintains

namespace Checked

/-- The slots of a node from an index on, with the merge of what lies below them. -/
def rest (μ : Type) [Memo μ] (mode : Mode) (n : Node) (i : Nat) : List (Slot (Mergeable μ)) :=
  (n.slots.drop i).map (Slot.map (mergeable mode))

theorem rest_cons [Memo μ] {i : Nat} (h : i < a.slots.length) {s : Slot a.Parent}
    (es : s.map Subtype.val = a.slots[i]) :
    rest μ mode a i = (s.map fun p => mergeable mode p.1) :: rest μ mode a (i + 1) := by
  unfold rest
  rw [List.drop_eq_getElem_cons h, List.map_cons, ← es, Slot.map_map]
  rfl

variable [Memo μ] {join : a.Parent → Node → GraphM μ Node}

theorem joinParents_eq (hj : ∀ p, ∀ q ∈ b.parents, join p q = StackGraph.merge mode p.1 q)
    (p : Option a.Parent) {q : Option Node} (hq : ∀ n, q = some n → n ∈ b.parents) :
    joinParents join p q =
      StackGraph.joinParents (p.map fun p => mergeable mode p.1) q := by
  cases p with
  | none => rfl
  | some p =>
    cases q with
    | none => rfl
    | some q =>
      simp only [joinParents, StackGraph.joinParents, Option.map_some, mergeable,
        hj p q (hq q rfl)]

/-- **The cursors weave the rest of both lists**, into a list of states and one of nodes. -/
theorem weaveFrom_eq (hj : ∀ p, ∀ q ∈ b.parents, join p q = StackGraph.merge mode p.1 q)
    (i j : Nat) :
    weaveFrom a b join i j = split <$> weave (rest μ mode a i) (b.slots.drop j) := by
  unfold weaveFrom
  by_cases h : i < a.size ∧ j < b.size
  · -- both cursors are before the end, and what they read are the fronts of both lists
    have hj' : j < b.slots.length := h.2
    obtain ⟨s, hs, es⟩ := slotBelow_of_lt h.1
    have left : rest μ mode a i = _ := rest_cons h.1 es
    have right : b.slots.drop j = b.slots[j] :: b.slots.drop (j + 1) := List.drop_eq_getElem_cons hj'
    have below : ∀ n, b.slots[j].parent = some n → n ∈ b.parents := fun n e =>
      mem_parents.mpr ⟨_, List.getElem_mem hj', e⟩
    rw [dif_pos h, hs, slotAt_of_lt hj']
    simp only [GraphM.lift, pure_bind]
    by_cases e : s.state = b.slots[j].state
    · rw [if_pos e, left, right, weave_cons_both e, weaveFrom_eq hj (i + 1) (j + 1),
        joinParents_eq hj s.parent below]
      simp only [map_bind, Functor.map_map]
      rfl
    · rw [if_neg e]
      by_cases lt : s.state < b.slots[j].state
      · have front : Mergeable.slot (s.map fun p => mergeable (μ := μ) mode p.1) =
            s.map Subtype.val := Slot.map_map _ _ s
        rw [if_pos lt, weaveFrom_eq hj (i + 1) j, left, right, weave_cons_left lt, front]
        simp only [Functor.map_map]
        rfl
      · have gt : b.slots[j].state < s.state := (UInt64.lt_or_lt_of_ne e).resolve_left lt
        rw [if_neg lt, weaveFrom_eq hj i (j + 1), left, right, weave_cons_right gt]
        simp only [Functor.map_map]
        rfl
  · -- one cursor is at its end, and nothing but the rest of the other list is left
    rw [dif_neg h, entries_eq, entries_eq]
    simp only [GraphM.lift, pure_bind]
    rcases not_and_or.mp h with h | h
    · have done : a.slots.drop i = [] := List.drop_eq_nil_of_le (Nat.le_of_not_lt h)
      rw [rest, done]
      rfl
    · have done : b.slots.drop j = [] := List.drop_eq_nil_of_le (Nat.le_of_not_lt h)
      rw [done, weave_nil_right, rest, List.map_map, map_pure, List.append_nil]
      exact congrArg (pure ∘ split) (List.map_id'' (slot_map_mergeable mode) _).symm
termination_by (a.size - i) + (b.size - j)

/-! ## 2. The three ways to merge -/

omit [Memo μ]

/-- Joining equal nodes in the list of nodes is joining them below the slots. -/
theorem coalesce_split (slots : List (Slot Node)) :
    coalesce (split slots).2 = (split (StackGraph.coalesce slots)).2 := by
  have parents : (slots.map (·.parent)).reduceOption = Slot.parents slots := List.filterMap_map
  simp [coalesce, split, StackGraph.coalesce, parents]

theorem states_coalesce (slots : List (Slot Node)) :
    (split (StackGraph.coalesce slots)).1 = (split slots).1 := by
  simp [split, Slot.states, StackGraph.coalesce]

/-- Several slots of a union become the node that is made of them. -/
theorem ofUnion_split (a b : Node) {woven : List (Slot Node)} (long : 2 ≤ woven.length) :
    ofUnion (μ := μ) a b (split woven) =
      reuse a b <$> Node.ofSlots (StackGraph.coalesce woven) := by
  have made : Node.ofLists (τ := μ) (split woven).1 (coalesce (split woven).2) =
      Node.ofSlots (StackGraph.coalesce woven) := by
    rw [coalesce_split, ← states_coalesce]
    exact ofLists_slots _
  rw [← made]
  match woven, long with
  | _ :: _ :: _, _ => rfl

theorem alike_eq (a b : Node) : alike a b = (a == b) := by
  unfold alike
  cases same : a.same b with
  | false => rfl
  | true =>
    rw [beq_def, agree_of_same same]
    rfl

/-- The choice beside the end of a stack, from lists, is the one from slots. -/
theorem besideEnd_frame (i : Nat) (k : Key) (x : State) (p : Node) :
    besideEnd (μ := μ) (frame i k x p) =
      Node.ofSlots ((frame i k x p).slots ++ [⟨State.bottom, none⟩]) :=
  ofLists_slots [⟨x, some p⟩, ⟨State.bottom, none⟩]

theorem joinRoots_eq (h : a.isBottom = true ∨ b.isBottom = true) (ka : a.kind ≠ .choice)
    (kb : b.kind ≠ .choice) :
    joinRoots (μ := μ) mode a b = StackGraph.joinRoots mode a b := by
  unfold joinRoots StackGraph.joinRoots
  cases mode with
  | wildcard => rfl
  | exact =>
    cases a with
    | choice i k slots => exact absurd rfl ka
    | bottom i =>
      cases b with
      | choice j k slots => exact absurd rfl kb
      | bottom j => rfl
      | frame j k y q => simp only [isBottom, besideEnd_frame]
    | frame i k x p =>
      cases b with
      | choice j k slots => exact absurd rfl kb
      | bottom j => simp only [isBottom, besideEnd_frame]
      | frame j k' y q => exact absurd h (by simp [isBottom])

variable [Memo μ] {join : a.Parent → Node → GraphM μ Node}

theorem joinFrames_eq (a : Node) (x : State) (p : Node) (b : Node) (y : State) (q : Node) :
    joinFrames a x p b y q (StackGraph.merge mode p q) =
      StackGraph.joinFrames (μ := μ) a x (mergeable mode p) b y q := by
  have lower : Node.ofLists (τ := μ) [x, y] [some p, some q] =
      Node.ofSlots [⟨x, some p⟩, ⟨y, some q⟩] := ofLists_slots [⟨x, some p⟩, ⟨y, some q⟩]
  have upper : Node.ofLists (τ := μ) [y, x] [some q, some p] =
      Node.ofSlots [⟨y, some q⟩, ⟨x, some p⟩] := ofLists_slots [⟨y, some q⟩, ⟨x, some p⟩]
  unfold joinFrames StackGraph.joinFrames
  simp only [alike_eq, lower, upper]
  rfl

/-- Two nodes of which one has several slots are merged slot by slot. -/
theorem joinSlots_eq (two : 2 ≤ a.slots.length ∨ 2 ≤ b.slots.length)
    (hj : ∀ p, ∀ q ∈ b.parents, join p q = StackGraph.merge mode p.1 q) :
    joinSlots a b join =
      StackGraph.joinSlots a b (a.slots.map (Slot.map (mergeable mode))) := by
  unfold joinSlots StackGraph.joinSlots
  rw [weaveFrom_eq hj 0 0, bind_map_left]
  refine Maintains.bind_congr (Maintains.weave_length _ _) fun woven h => ?_
  have long : 2 ≤ woven.length := by
    rw [rest, List.length_map, List.drop_zero, List.drop_zero] at h
    omega
  rw [ofUnion_split a b long, bind_map_left]

/-! ## 3. The merge -/

/-- A bottom and another node. -/
theorem mergeBottom_eq {i : Nat} (hb : b.WellFormed) (other : ¬ (bottom i).same b = true)
    (joins : ∀ p : (bottom i).Parent, ∀ q ∈ b.parents,
      merge (μ := μ) mode p.1 q = StackGraph.merge mode p.1 q) :
    merge (μ := μ) mode (bottom i) b = mergeBottom mode (bottom i) b := by
  unfold merge mergeBottom
  rw [if_neg other, if_neg other]
  cases b with
  | bottom j =>
    rw [if_pos ⟨nofun, nofun⟩]
    exact congrArg _ (joinRoots_eq (.inl rfl) nofun nofun)
  | frame j k y q =>
    rw [if_pos ⟨nofun, nofun⟩]
    exact congrArg _ (joinRoots_eq (.inl rfl) nofun nofun)
  | choice j k slots =>
    have two : 2 ≤ slots.length := (hb _ (.refl _)).1
    rw [if_neg fun h => h.2 rfl]
    cases mode with
    | wildcard => rfl
    | exact =>
      rw [if_neg nofun, if_neg nofun, if_pos (.inr rfl)]
      exact congrArg _ (joinSlots_eq (.inr two) joins)

/-- A frame and another node. -/
theorem mergeFrame_eq {i : Nat} {k : Key} {x : State} {p : Node} (hb : b.WellFormed)
    (other : ¬ (frame i k x p).same b = true)
    (joins : ∀ p' : (frame i k x p).Parent, ∀ q ∈ b.parents,
      merge (μ := μ) mode p'.1 q = StackGraph.merge mode p'.1 q) :
    merge (μ := μ) mode (frame i k x p) b =
      mergeFrame mode (frame i k x p) x (mergeable mode p) b := by
  unfold merge mergeFrame
  rw [if_neg other, if_neg other]
  cases b with
  | bottom j =>
    rw [if_pos ⟨nofun, nofun⟩]
    exact congrArg _ (joinRoots_eq (.inr rfl) nofun nofun)
  | frame j k' y q =>
    rw [if_pos ⟨nofun, nofun⟩]
    refine congrArg _ ?_
    show joinFrames _ x p _ y q (merge mode p q) = _
    rw [joins ⟨p, List.mem_cons_self⟩ q List.mem_cons_self, joinFrames_eq]
  | choice j k' slots =>
    have two : 2 ≤ slots.length := (hb _ (.refl _)).1
    rw [if_neg fun h => h.2 rfl, if_neg nofun, if_neg nofun, if_pos (.inr rfl)]
    exact congrArg _ (joinSlots_eq (.inr two) joins)

/-- A choice and another node. -/
theorem mergeChoice_eq {i : Nat} {k : Key} {slots : List (Slot Node)}
    (ha : (choice i k slots).WellFormed) (other : ¬ (choice i k slots).same b = true)
    (joins : ∀ p : (choice i k slots).Parent, ∀ q ∈ b.parents,
      merge (μ := μ) mode p.1 q = StackGraph.merge mode p.1 q) :
    merge (μ := μ) mode (choice i k slots) b =
      mergeChoice mode (choice i k slots) (mergeables mode slots) b := by
  unfold merge mergeChoice
  rw [if_neg other, if_neg other, if_neg fun h => h.1 rfl, if_neg nofun]
  by_cases swallowed : b.isBottom = true ∧ mode = .wildcard
  · rw [if_pos swallowed, if_pos swallowed.symm]
  · have two : 2 ≤ slots.length := (ha _ (.refl _)).1
    rw [if_neg swallowed, if_neg fun h => swallowed h.symm, if_pos (.inl rfl), mergeables_eq_map]
    exact congrArg _ (joinSlots_eq (.inl two) joins)

/-- **On well-formed nodes the merge by index is the merge**, with every memo. -/
theorem merge_eq (ha : a.WellFormed) (hb : b.WellFormed) :
    merge (μ := μ) mode a b = StackGraph.merge mode a b := by
  induction a using Node.induction generalizing b with
  | step a ih =>
    have joins : ∀ p : a.Parent, ∀ q ∈ b.parents,
        merge (μ := μ) mode p.1 q = StackGraph.merge mode p.1 q := fun p q hq =>
      ih p.1 p.2 (ha.parent p.2) (hb.parent hq)
    by_cases same : a.same b = true
    · unfold merge
      cases a <;> exact (if_pos same).trans (if_pos same).symm
    · cases a with
      | bottom i => exact mergeBottom_eq hb same joins
      | frame i k x p => exact mergeFrame_eq hb same joins
      | choice i k slots => exact mergeChoice_eq ha same joins

end Checked

end StackGraph
