import StackGraph.Merge.Basic
import StackGraph.Proofs.Memos

/-!
# Weaving slot lists

Two ascending lists of slots are woven from the front, and what lies below a state of both is merged
on the way. The woven list stands for the merged list of the trees below, slot by slot: always in
its states and in where something lies below, and in the trees where the memo is honest.

* `weave_cons_left`, `weave_cons_both`, `weave_cons_right` -- one step of the weaving;
* `Joins` -- an operation beside a node that is its merge;
* `Woven` -- a slot of a woven list and the slot it stands for;
* `Grows.weave` -- the lists are woven as the lists of their trees are merged.
-/

namespace StackGraph

open Node

variable {μ : Type}

/-! ## 1. One step of the weaving -/

/-- Beside no slots the left ones stay as they are. -/
theorem weave_nil_right (left : List (Slot (Mergeable μ))) :
    weave left [] = pure (left.map Mergeable.slot) := by
  induction left with
  | nil => rfl
  | cons s left ih =>
    have step : weave (s :: left) [] = (Mergeable.slot s :: ·) <$> weave left [] := rfl
    rw [step, ih, map_pure]
    rfl

section Step

variable {s : Slot (Mergeable μ)} {left : List (Slot (Mergeable μ))} {t : Slot Node}
  {right : List (Slot Node)}

/-! The smaller of both slots comes first, slots of one state become one. -/

theorem weave_cons_right (h : t.state < s.state) :
    weave (s :: left) (t :: right) = (t :: ·) <$> weave (s :: left) right := if_pos h

theorem weave_cons_both (h : s.state = t.state) :
    weave (s :: left) (t :: right) =
      joinParents s.parent t.parent >>= fun parent => (⟨s.state, parent⟩ :: ·) <$> weave left right :=
  (if_neg (h ▸ UInt64.lt_irrefl _)).trans (if_pos h.symm)

theorem weave_cons_left (h : s.state < t.state) :
    weave (s :: left) (t :: right) = (Mergeable.slot s :: ·) <$> weave left (t :: right) :=
  (if_neg (UInt64.lt_asymm h)).trans (if_neg (UInt64.ne_of_lt h).symm)

end Step

/-- A slot beside whose node the merge stands, without the merge. -/
theorem slot_map_mergeable [Memo μ] (mode : Mode) (s : Slot Node) :
    Mergeable.slot (s.map (mergeable (μ := μ) mode)) = s :=
  (Slot.map_map _ _ s).trans (Slot.map_id s)

/-! ## 2. Woven slots -/

variable [Memo μ] {honest : Prop} {mode : Mode} {memo : MemoUpkeep μ honest mode} {g g' : Graph}

/-- The operation beside a node is its merge, from the graph `g` on. -/
structure Joins (memo : MemoUpkeep μ honest mode) (g : Graph) (p : Mergeable μ) : Prop where
  mem : p.node ∈ g
  join : ∀ g', g ≤ g' → ∀ q ∈ g',
    Grows False memo.toUpkeep g' (p.join q) (Merged honest mode · p.node q)

theorem Joins.mono {p : Mergeable μ} (h : Joins memo g p) (le : g ≤ g') : Joins memo g' p :=
  ⟨le _ h.mem, fun g'' le' => h.join g'' (Graph.le_trans le le')⟩

/-- The tree of a node that stands beside its merge. -/
def Mergeable.tree (p : Mergeable μ) : Tree := p.node.tree

/-- A slot of a woven list, with nodes of the graph below, stands for a slot of the merged list of
    trees: it has its state, and something below where that slot has. Where the memo is honest, it
    has the tree below. -/
structure Woven (honest : Prop) (g : Graph) (s : Slot Node) (t : Slot Tree) : Prop where
  mem : ∀ p, s.parent = some p → p ∈ g
  shape_eq : s.map (fun _ => ()) = t.map fun _ => ()
  tree_eq : honest → s.map tree = t

theorem Woven.mono {s : Slot Node} {t : Slot Tree} (h : Woven honest g s t) (le : g ≤ g') :
    Woven honest g' s t :=
  ⟨fun p hp => le p (h.mem p hp), h.shape_eq, h.tree_eq⟩

theorem Woven.of_mem {s : Slot Node} (h : ∀ p, s.parent = some p → p ∈ g) :
    Woven honest g s (s.map tree) := by
  refine ⟨h, ?_, fun _ => rfl⟩
  rw [Slot.map_map]

/-- A slot of a mergeable node, without the operation. -/
theorem Woven.of_joins {s : Slot (Mergeable μ)} (h : ∀ p, s.parent = some p → Joins memo g p) :
    Woven honest g (Mergeable.slot s) (s.map Mergeable.tree) := by
  have e : s.map Mergeable.tree = (Mergeable.slot s).map tree := (Slot.map_map _ _ s).symm
  rw [e]
  refine .of_mem fun n hn => ?_
  obtain ⟨p, hp, rfl⟩ := Option.map_eq_some_iff.mp hn
  exact (h p hp).mem

theorem Woven.forall_of_within {slots : List (Slot Node)} (h : g.Within slots) :
    List.Forall₂ (Woven honest g) slots (slots.map (Slot.map tree)) := by
  induction slots with
  | nil => exact .nil
  | cons s rest ih => exact .cons (.of_mem (h s List.mem_cons_self)) (ih h.tail)

/-! A whole woven list. -/

section Lists

variable {woven : List (Slot Node)} {merged : List (Slot Tree)}

theorem Woven.within (h : List.Forall₂ (Woven honest g) woven merged) : g.Within woven := by
  induction h with
  | nil => exact fun _ hs => absurd hs List.not_mem_nil
  | cons hw _ ih =>
    intro s hs
    rcases List.mem_cons.mp hs with rfl | hs
    · exact hw.mem
    · exact ih s hs

theorem Woven.shape_list (h : List.Forall₂ (Woven honest g) woven merged) :
    Slot.shape woven = Slot.shape merged := by
  induction h with
  | nil => rfl
  | cons hw _ ih => exact congrArg₂ List.cons hw.shape_eq ih

theorem Woven.tree_list (h : List.Forall₂ (Woven honest g) woven merged) (ho : honest) :
    woven.map (Slot.map tree) = merged := by
  induction h with
  | nil => rfl
  | cons hw _ ih => exact congrArg₂ List.cons (hw.tree_eq ho) ih

/-- Other nodes of the same trees may take the place of those below a woven slot. -/
theorem Woven.replace {s : Slot Node} {t : Slot Tree} {f : Node → Node}
    (hf : ∀ n ∈ g, f n ∈ g ∧ (f n).tree = n.tree) (h : Woven honest g s t) :
    Woven honest g (s.map f) t := by
  obtain ⟨x, p⟩ := s
  refine ⟨fun q hq => ?_, (Slot.map_map _ _ _).trans h.shape_eq, fun ho => ?_⟩
  · obtain ⟨p', hp', rfl⟩ := Option.map_eq_some_iff.mp hq
    exact (hf p' (h.mem p' hp')).1
  · rw [← h.tree_eq ho]
    cases p with
    | none => rfl
    | some p' => simp [Slot.map, (hf p' (h.mem p' rfl)).2]

end Lists

namespace Grows

theorem joinParents {p : Option (Mergeable μ)} {q : Option Node}
    (hp : ∀ p', p = some p' → Joins memo g p') (hq : ∀ q', q = some q' → q' ∈ g) (x : State) :
    Grows False memo.toUpkeep g (StackGraph.joinParents p q) fun g' r =>
      Woven honest g' ⟨x, r⟩
        ⟨x, Option.merge (Tree.merge mode) (p.map Mergeable.tree) (q.map tree)⟩ := by
  cases p with
  | none =>
    refine .pure ?_
    rw [Option.map_none, Option.merge_none_left]
    exact .of_mem (s := ⟨x, q⟩) hq
  | some p' =>
    have joins := hp p' rfl
    have hp' : ∀ n, some p'.node = some n → n ∈ g := fun n e => Option.some.inj e ▸ joins.mem
    cases q with
    | none => exact .pure (.of_mem (s := ⟨x, some p'.node⟩) hp')
    | some q' =>
      have hq' := hq q' rfl
      by_cases same : p'.node.same q' = true
      · simp only [StackGraph.joinParents, if_pos same]
        have e := Graph.eq_of_same joins.mem hq' same
        have self : Tree.merge mode q'.tree q'.tree = q'.tree :=
          Tree.merge_self (Graph.proper_tree hq')
        refine .pure ⟨hp', rfl, fun _ => ?_⟩
        simp [Slot.map, Mergeable.tree, e, self]
      · simp only [StackGraph.joinParents, if_neg same]
        refine .map ((joins.join g g.le_refl q' hq').weaken fun g' m _ h => ⟨?_, rfl, fun ho => ?_⟩)
        · exact fun n e => Option.some.inj e ▸ h.mem
        · simp [Slot.map, Mergeable.tree, h.tree_eq ho]

/-- A slot is put in its place: the result is woven from it and all that `rest` weaves. -/
theorem place {s : Slot (Mergeable μ)} {rest : List (Slot Node) → GraphM μ (List (Slot Node))}
    {left : List (Slot Tree)} {right : List (Slot Node)}
    (hs : ∀ p, s.parent = some p → Joins memo g p) (before : ∀ x ∈ Slot.states left, s.state < x)
    (hrest : ∀ g', g ≤ g' → ∀ right, Slot.Ascending right → g'.Within right →
      Grows False memo.toUpkeep g' (rest right) fun g'' woven =>
        List.Forall₂ (Woven honest g'') woven
          (Tree.mergeSlots mode left (right.map (Slot.map tree))))
    (asc : Slot.Ascending right) (hr : g.Within right) :
    Grows False memo.toUpkeep g (StackGraph.place s rest right) fun g' woven =>
      List.Forall₂ (Woven honest g') woven
        (Tree.mergeSlots mode (s.map Mergeable.tree :: left) (right.map (Slot.map tree))) := by
  induction right generalizing g with
  | nil =>
    refine .map ((hrest g g.le_refl [] asc hr).weaken fun g' woven le h => ?_)
    rw [Tree.mergeSlots_cons_left before fun _ h => absurd h List.not_mem_nil]
    exact .cons ((Woven.of_joins hs).mono le) h
  | cons t right ih =>
    obtain ⟨after, asc'⟩ := Slot.ascending_cons.mp asc
    unfold StackGraph.place
    by_cases lt : t.state < s.state
    · rw [if_pos lt]
      refine .map ((ih hs hrest asc' hr.tail).weaken fun g' woven le h => ?_)
      have first : ∀ x ∈ Slot.states (s.map Mergeable.tree :: left), t.state < x := by
        intro x hx
        rcases List.mem_cons.mp hx with rfl | hx
        · exact lt
        · exact UInt64.lt_trans lt (before x hx)
      rw [List.map_cons, Tree.mergeSlots_cons_right first]
      exact .cons (.of_mem fun p hp => le p (hr t List.mem_cons_self p hp)) h
    · rw [if_neg lt]
      by_cases e : t.state = s.state
      · rw [if_pos e]
        refine (joinParents hs (hr t List.mem_cons_self) s.state).bind fun g₁ r le hw => .map ?_
        refine (hrest g₁ le right asc' (hr.tail.mono le)).weaken fun g₂ woven le' h => ?_
        rw [List.map_cons, Tree.mergeSlots_cons_cons (s := s.map _) (t := t.map _) e.symm before]
        exact .cons (hw.mono le') h
      · rw [if_neg e]
        have gt : s.state < t.state := (UInt64.lt_or_lt_of_ne e).resolve_left lt
        refine .map ((hrest g g.le_refl _ asc hr).weaken fun g' woven le h => ?_)
        have first : ∀ x ∈ Slot.states ((t :: right).map (Slot.map tree)), s.state < x := by
          intro x hx
          rw [Slot.states_map] at hx
          rcases List.mem_cons.mp hx with rfl | hx
          · exact gt
          · exact UInt64.lt_trans gt (after x hx)
        rw [Tree.mergeSlots_cons_left before first]
        exact .cons ((Woven.of_joins hs).mono le) h

/-- **Weaving slot lists is merging the lists of their trees.** -/
theorem weave {left : List (Slot (Mergeable μ))} {right : List (Slot Node)}
    (hl : ∀ s ∈ left, ∀ p, s.parent = some p → Joins memo g p) (ascl : Slot.Ascending left)
    (ascr : Slot.Ascending right) (hr : g.Within right) :
    Grows False memo.toUpkeep g (StackGraph.weave left right) fun g' woven =>
      List.Forall₂ (Woven honest g') woven
        (Tree.mergeSlots mode (left.map (Slot.map Mergeable.tree))
          (right.map (Slot.map tree))) := by
  induction left generalizing g right with
  | nil => exact .pure (Woven.forall_of_within hr)
  | cons s left ih =>
    obtain ⟨before, ascl'⟩ := Slot.ascending_cons.mp ascl
    have before' : ∀ x ∈ Slot.states (left.map (Slot.map Mergeable.tree)), s.state < x := by
      rw [Slot.states_map]
      exact before
    refine place (hl s List.mem_cons_self) before' (fun g' le right' ascr' hr' => ?_) ascr hr
    exact ih (fun t ht p hp => (hl t (List.mem_cons_of_mem _ ht) p hp).mono le) ascl' ascr' hr'

end Grows

end StackGraph
