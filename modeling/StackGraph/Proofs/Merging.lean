import StackGraph.Proofs.Building
import StackGraph.Proofs.Equality
import StackGraph.Proofs.Weaving

/-!
# Merging nodes is merging trees

The merge of two nodes of a graph never fails, and it gives a node of a larger graph, the merge of
both: its tree is the merge of the trees where the memo is honest. None of the ways the merge may
take is an exception: the same node twice, a bottom, frames, choices, the reuse of an operand and
the joining of equal nodes below.

* `Merged.reuse`, `Woven.coalesce` -- reuse and joining change no tree;
* `Reuses` -- a merge that is an operand itself where it is equal to one;
* `Grows.joinSlots`, `Grows.joinRoots`, `Grows.joinFrames` -- the three ways to merge;
* `MergeWay` -- how a merge is found, at once or by one of these;
* `Grows.merge` -- **the merge of nodes**, by induction on the left node.
-/

namespace StackGraph

open Node

variable {μ : Type} [Memo μ] {honest : Prop} {mode : Mode} {memo : MemoUpkeep μ honest mode}
  {g : Graph} {a b : Node}

/-! ## 1. Reuse -/

/-- A node of the graph may be taken for an equal one. -/
theorem Merged.of_beq {m n : Node} (h : Merged honest mode g a b m) (hn : n ∈ g)
    (e : (m == n) = true) : Merged honest mode g a b n :=
  ⟨hn, fun ho => ((Graph.beq_iff h.mem hn).mp e).symm.trans (h.tree_eq ho)⟩

theorem Merged.reuse {m : Node} (h : Merged honest mode g a b m) (ha : a ∈ g) (hb : b ∈ g) :
    Merged honest mode g a b (reuse a b m) := by
  unfold StackGraph.reuse
  by_cases ea : (m == a) = true
  · rw [if_pos ea]
    exact h.of_beq ha ea
  · rw [if_neg ea]
    by_cases eb : (m == b) = true
    · rw [if_pos eb]
      exact h.of_beq hb eb
    · rw [if_neg eb]
      exact h

/-- The merge `m` is an operand itself where it is equal to one, and the left one rather than the
    right one. -/
structure Reuses (a b m : Node) : Prop where
  left : m.tree = a.tree → m = a
  right : m.tree ≠ a.tree → m.tree = b.tree → m = b

theorem Reuses.self (a b : Node) : Reuses a b a := ⟨fun _ => rfl, fun ne => absurd rfl ne⟩

/-- What has the tree of neither operand need not be one. -/
theorem Reuses.of_ne {m : Node} (ha : m.tree ≠ a.tree) (hb : m.tree ≠ b.tree) : Reuses a b m :=
  ⟨fun e => absurd e ha, fun _ e => absurd e hb⟩

/-- The right operand is reused when it does not equal the left one. -/
theorem Reuses.other (ne : b.tree ≠ a.tree) : Reuses a b b := ⟨fun e => absurd e ne, fun _ _ => rfl⟩

/-- The node is no bottom beside the common one. -/
def Node.NoOtherBottom (n : Node) : Prop := n.isBottom = true → n = Node.empty

/-- Of two operands of which one is a bottom, the common bottom is one of them. -/
theorem Reuses.empty (h : a.isBottom = true ∨ b.isBottom = true) (ha : a.NoOtherBottom)
    (hb : b.NoOtherBottom) : Reuses a b Node.empty := by
  constructor
  · exact fun e => (ha (tree_eq_bottom_iff.mp e.symm)).symm
  · exact fun ne _ => (hb (h.resolve_left fun bottom => ne (tree_eq_bottom_iff.mpr bottom).symm)).symm

theorem reuses_reuse {m : Node} (hm : m ∈ g) (ha : a ∈ g) (hb : b ∈ g) :
    Reuses a b (reuse a b m) := by
  unfold StackGraph.reuse
  have left := Graph.beq_iff hm ha
  have right := Graph.beq_iff hm hb
  by_cases ea : (m == a) = true
  · rw [if_pos ea]
    exact .self a b
  · rw [if_neg ea]
    rw [left] at ea
    by_cases eb : (m == b) = true
    · rw [if_pos eb]
      exact .other fun e => ea ((right.mp eb).trans e)
    · rw [if_neg eb]
      rw [right] at eb
      exact .of_ne ea eb

/-- The earliest equal node has the same tree. -/
theorem tree_earliest {nodes : List Node} (hs : ∀ n ∈ nodes, n ∈ g) {n : Node} (hn : n ∈ g) :
    earliest nodes n ∈ g ∧ (earliest nodes n).tree = n.tree := by
  unfold earliest
  cases found : nodes.find? (· == n) with
  | none => exact ⟨hn, rfl⟩
  | some m =>
    have hm := hs m (List.mem_of_find?_eq_some found)
    exact ⟨hm, (Graph.beq_iff hm hn).mp (by simpa using List.find?_some found)⟩

/-- Joining equal nodes below the slots changes no tree. -/
theorem Woven.coalesce {woven : List (Slot Node)} {merged : List (Slot Tree)}
    (h : List.Forall₂ (Woven honest g) woven merged) :
    List.Forall₂ (Woven honest g) (coalesce woven) merged := by
  have below : ∀ n ∈ Slot.parents woven, n ∈ g := fun n hn => by
    obtain ⟨s, hs, e⟩ := Slot.mem_parents.mp hn
    exact Woven.within h s hs n e
  unfold StackGraph.coalesce
  rw [List.forall₂_map_left_iff]
  exact h.imp fun s t hw => hw.replace fun n hn => tree_earliest below hn

omit [Memo μ] in
/-- Beside the nodes of the slots of `a` stand their trees. -/
theorem map_tree_of_map_slot {slots : List (Slot (Mergeable μ))}
    (hs : slots.map Mergeable.slot = a.slots) :
    slots.map (Slot.map Mergeable.tree) = a.tree.slots := by
  rw [slots_tree, ← hs, List.map_map]
  exact List.map_congr_left fun s _ => (Slot.map_map _ _ s).symm

/-- The merged slots of two nodes of a graph are in order. -/
theorem Graph.normalSlots_merge (mode : Mode) (ha : a ∈ g) (hb : b ∈ g) :
    NormalSlots (Tree.mergeSlots mode a.tree.slots b.tree.slots) :=
  Tree.normalSlots_mergeSlots (Graph.proper_tree ha).normal (Graph.proper_tree hb).normal

namespace Grows

/-! ## 2. The three ways to merge -/

/-- Two nodes are merged slot by slot. -/
theorem joinSlots {slots : List (Slot (Mergeable μ))} (ha : a ∈ g) (hb : b ∈ g)
    (hs : slots.map Mergeable.slot = a.slots)
    (hj : ∀ s ∈ slots, ∀ p, s.parent = some p → Joins memo g p)
    (sw : ¬ Tree.Swallows mode a.tree b.tree) :
    Grows False memo.toUpkeep g (StackGraph.joinSlots a b slots)
      fun g' m => Merged honest mode g' a b m ∧ Reuses a b m := by
  have trees := map_tree_of_map_slot hs
  have asc : Slot.Ascending slots := by
    rw [← Slot.ascending_map Mergeable.tree, trees]
    exact (Graph.proper_tree ha).normal.ascending
  have normal := Graph.normalSlots_merge mode ha hb
  unfold StackGraph.joinSlots
  refine (weave hj asc (Graph.normalSlots hb).ascending (Graph.within_slots hb)).bind
    fun g₁ woven le h => ?_
  rw [trees, ← slots_tree] at h
  have h' := Woven.coalesce h
  have made : Grows False memo.toUpkeep g₁ (Node.ofSlots (coalesce woven)) _ :=
    (ofSlots (Woven.within h')).mayFailFor
      fun not_normal => not_normal (normal.of_shape_eq (Woven.shape_list h'))
  refine made.bind fun g₂ m le' ⟨hm, em⟩ => (emit _).bind fun g₃ _ le₃ _ => .pure ?_
  have merged : Merged honest mode g₂ a b m := by
    refine ⟨hm, fun ho => ?_⟩
    rw [em, Woven.tree_list h' ho, Tree.merge_eq, if_neg sw]
  have le₂ := Graph.le_trans le le'
  exact ⟨(merged.reuse (le₂ a ha) (le₂ b hb)).mono le₃, reuses_reuse hm (le₂ a ha) (le₂ b hb)⟩

omit [Memo μ] in
/-- A frame is kept beside the end of a stack. -/
theorem frameAndEnd {inv : Upkeep μ} {x : State} {p : Node} (hx : x ≠ State.bottom) (hp : p ∈ g) :
    Grows False inv g (Node.ofSlots [⟨x, some p⟩, ⟨State.bottom, none⟩])
      fun g' n => n ∈ g' ∧ n.tree = .choice [⟨x, some p.tree⟩, ⟨State.bottom, none⟩] := by
  have below : g.Within [⟨x, some p⟩, ⟨State.bottom, none⟩] :=
    .cons_some hp (.cons_none Graph.within_nil)
  exact ofPair (Tree.lt_bottom hx) Slot.not_isOrphan_some (fun o => o.2 rfl) below

omit [Memo μ] in
/-- A bottom is merged with a bottom or a frame. No memo is asked, so the merge is always right. -/
theorem joinRoots {inv : Upkeep μ} (ha : a ∈ g) (hb : b ∈ g)
    (h : a.isBottom = true ∨ b.isBottom = true) (ka : a.kind ≠ .choice) (kb : b.kind ≠ .choice) :
    Grows False inv g (StackGraph.joinRoots mode a b) fun g' m =>
      Merged True mode g' a b m ∧ (a.NoOtherBottom → b.NoOtherBottom → Reuses a b m) := by
  unfold StackGraph.joinRoots
  refine (emit _).bind fun g₁ _ le _ => ?_
  have ha' := le a ha
  have hb' := le b hb
  cases mode with
  | wildcard =>
    have sw : Tree.Swallows .wildcard a.tree b.tree :=
      ⟨rfl, h.imp tree_eq_bottom_iff.mpr tree_eq_bottom_iff.mpr⟩
    exact .pure ⟨⟨g₁.empty_mem, fun _ => (Tree.merge_of_swallows sw).symm⟩, .empty h⟩
  | exact =>
    cases a with
    | choice i k slots => exact absurd rfl ka
    | bottom i =>
      cases b with
      | choice j k slots => exact absurd rfl kb
      | bottom j => exact .pure ⟨⟨g₁.empty_mem, fun _ => (Tree.merge_self .bottom).symm⟩, .empty h⟩
      | frame j k y q =>
        have hy : y ≠ State.bottom := (g₁.sound hb').1
        refine (frameAndEnd hy (Graph.parent_mem hb' List.mem_cons_self)).weaken
          fun g₂ n _ ⟨hn, en⟩ => ⟨⟨hn, fun _ => ?_⟩, fun _ _ => ?_⟩
        · exact en.trans (Tree.merge_exact_bottom_frame hy q.tree).symm
        · exact .of_ne (en ▸ nofun) (en ▸ nofun)
    | frame i k x p =>
      have hx : x ≠ State.bottom := (g₁.sound ha').1
      obtain ⟨j, rfl⟩ : ∃ j, b = .bottom j := by
        cases b with
        | bottom j => exact ⟨j, rfl⟩
        | frame j k y q => rcases h with h | h <;> cases h
        | choice j k slots => exact absurd rfl kb
      refine (frameAndEnd hx (Graph.parent_mem ha' List.mem_cons_self)).weaken
        fun g₂ n _ ⟨hn, en⟩ => ⟨⟨hn, fun _ => ?_⟩, fun _ _ => ?_⟩
      · exact en.trans (Tree.merge_exact_frame_bottom hx p.tree).symm
      · exact .of_ne (en ▸ nofun) (en ▸ nofun)

omit [Memo μ] in
/-- Frames of different states are kept side by side. -/
theorem twoFrames {inv : Upkeep μ} {x y : State} {p q : Node} (lt : x < y) (hp : p ∈ g)
    (hq : q ∈ g) :
    Grows False inv g (Node.ofSlots [⟨x, some p⟩, ⟨y, some q⟩])
      fun g' n => n ∈ g' ∧ n.tree = .choice [⟨x, some p.tree⟩, ⟨y, some q.tree⟩] := by
  have below : g.Within [⟨x, some p⟩, ⟨y, some q⟩] := .cons_some hp (.cons_some hq Graph.within_nil)
  exact ofPair lt Slot.not_isOrphan_some Slot.not_isOrphan_some below

/-- Two frames are merged. -/
theorem joinFrames {i j : Nat} {k k' : Key} {x y : State} {p : Mergeable μ} {q : Node}
    (ha : .frame i k x p.node ∈ g) (hb : .frame j k' y q ∈ g) (hp : Joins memo g p) :
    Grows False memo.toUpkeep g
      (StackGraph.joinFrames (.frame i k x p.node) x p (.frame j k' y q) y q)
      fun g' m => Merged honest mode g' (.frame i k x p.node) (.frame j k' y q) m ∧
        Reuses (.frame i k x p.node) (.frame j k' y q) m := by
  have hx : x ≠ State.bottom := (g.sound ha).1
  have hy : y ≠ State.bottom := (g.sound hb).1
  have hq : q ∈ g := Graph.parent_mem hb List.mem_cons_self
  have ta : (frame i k x p.node).tree = .frame x p.node.tree := rfl
  have tb : (frame j k' y q).tree = .frame y q.tree := rfl
  unfold StackGraph.joinFrames
  by_cases e : x = y
  · subst e
    rw [if_pos rfl]
    refine (hp.join g g.le_refl q hq).bind fun g₁ m le hm => ?_
    have frame_eq : honest → Tree.merge mode (.frame x p.node.tree) (.frame x q.tree) =
        .frame x m.tree := fun ho => by rw [Tree.merge_frame_same hx, hm.tree_eq ho]
    by_cases ep : (m == p.node) = true
    · rw [if_pos ep]
      have et := (Graph.beq_iff hm.mem (le _ hp.mem)).mp ep
      exact .pure ⟨⟨le _ ha, fun ho => by rw [ta, tb, frame_eq ho, et]⟩, .self _ _⟩
    · rw [if_neg ep]
      rw [Graph.beq_iff hm.mem (le _ hp.mem)] at ep
      by_cases eq : (m == q) = true
      · rw [if_pos eq]
        have et := (Graph.beq_iff hm.mem (le _ hq)).mp eq
        refine .pure ⟨⟨le _ hb, fun ho => by rw [ta, tb, frame_eq ho, et]⟩, .other fun e => ?_⟩
        exact ep (et.trans (Tree.frame.inj e).2)
      · rw [if_neg eq]
        rw [Graph.beq_iff hm.mem (le _ hq)] at eq
        have made : Grows False memo.toUpkeep g₁ (Node.push m x) _ :=
          (push hm.mem x).mayFailFor fun h => hx h.1
        refine made.weaken fun g₂ n _ ⟨hn, en⟩ => ?_
        rw [Tree.ofSlots_frame hx] at en
        refine ⟨⟨hn, fun ho => by rw [en, ta, tb, frame_eq ho]⟩, .of_ne ?_ ?_⟩
        · rw [en]
          exact fun e => ep (Tree.frame.inj e).2
        · rw [en]
          exact fun e => eq (Tree.frame.inj e).2
  · rw [if_neg e]
    by_cases lt : x < y
    · rw [if_pos lt]
      refine (twoFrames lt hp.mem hq).weaken fun g₁ n _ ⟨hn, en⟩ => ⟨⟨hn, fun _ => ?_⟩, ?_⟩
      · exact en.trans (Tree.merge_frame_lt lt _ _).symm
      · exact .of_ne (en ▸ nofun) (en ▸ nofun)
    · rw [if_neg lt]
      have gt : y < x := (UInt64.lt_or_lt_of_ne e).resolve_left lt
      refine (twoFrames gt hq hp.mem).weaken fun g₁ n _ ⟨hn, en⟩ => ⟨⟨hn, fun _ => ?_⟩, ?_⟩
      · exact en.trans (Tree.merge_frame_gt gt _ _).symm
      · exact .of_ne (en ▸ nofun) (en ▸ nofun)

end Grows

/-! ## 3. The merge -/

/-- A merge of `a` and `b` is known at once, or it is computed unless the memo knows it. -/
inductive MergeWay (memo : MemoUpkeep μ honest mode) (g : Graph) (a b : Node) :
    GraphM μ Node → Prop where
  | known {m : Node} (h : Merged honest mode g a b m) (r : Reuses a b m) :
    MergeWay memo g a b (pure m)
  | computed {compute : GraphM μ Node}
      (h : ∀ g', g ≤ g' → Grows False memo.toUpkeep g' compute fun g'' m =>
        Merged honest mode g'' a b m ∧ (a.NoOtherBottom → b.NoOtherBottom → Reuses a b m)) :
    MergeWay memo g a b (memoized a b compute)

namespace MergeWay

/-- The same node twice is its own merge. -/
theorem unlessSame (ha : a ∈ g) (hb : b ∈ g) {otherwise : GraphM μ Node}
    (h : MergeWay memo g a b otherwise) :
    MergeWay memo g a b (if a.same b then pure a else otherwise) := by
  by_cases same : a.same b = true
  · rw [if_pos same]
    obtain rfl := Graph.eq_of_same ha hb same
    exact .known (.self ha) (.self a a)
  · rw [if_neg same]
    exact h

/-- Nodes of which one is a choice are merged slot by slot. -/
theorem slots {slots : List (Slot (Mergeable μ))} (ha : a ∈ g) (hb : b ∈ g)
    (hs : slots.map Mergeable.slot = a.slots)
    (hj : ∀ s ∈ slots, ∀ p, s.parent = some p → Joins memo g p)
    (sw : ¬ Tree.Swallows mode a.tree b.tree) :
    MergeWay memo g a b (memoized a b (joinSlots a b slots)) := by
  refine .computed fun g' le => ?_
  have joined := Grows.joinSlots (le a ha) (le b hb) hs
    (fun s hs p hp => (hj s hs p hp).mono le) sw
  exact joined.weaken fun _ _ _ ⟨hm, r⟩ => ⟨hm, fun _ _ => r⟩

/-- A bottom and a bottom or a frame. -/
theorem roots (ha : a ∈ g) (hb : b ∈ g) (h : a.isBottom = true ∨ b.isBottom = true)
    (ka : a.kind ≠ .choice) (kb : b.kind ≠ .choice) :
    MergeWay memo g a b (memoized a b (joinRoots mode a b)) :=
  .computed fun _ le => (Grows.joinRoots (le a ha) (le b hb) h ka kb).weaken
    fun _ _ _ ⟨hm, r⟩ => ⟨⟨hm.mem, fun _ => hm.tree_eq trivial⟩, r⟩

theorem mergeBottom {i : Nat} (ha : .bottom i ∈ g) (hb : b ∈ g) :
    MergeWay memo g (.bottom i) b (StackGraph.mergeBottom mode (.bottom i) b) := by
  refine unlessSame ha hb ?_
  cases b with
  | bottom j => exact roots ha hb (.inl rfl) nofun nofun
  | frame j k y q => exact roots ha hb (.inl rfl) nofun nofun
  | choice j k slots =>
    cases mode with
    | wildcard =>
      have sw : Tree.Swallows .wildcard (Node.bottom i).tree (Node.choice j k slots).tree :=
        ⟨rfl, .inl rfl⟩
      exact .known ⟨ha, fun _ => (Tree.merge_of_swallows sw).symm⟩ (.self _ _)
    | exact =>
      refine MergeWay.slots ha hb rfl (fun s hs p hp => ?_) fun h => nomatch h.1
      rw [List.mem_singleton.mp hs] at hp
      cases hp

theorem mergeFrame {i : Nat} {k : Key} {x : State} {p : Mergeable μ}
    (ha : .frame i k x p.node ∈ g) (hb : b ∈ g) (hp : Joins memo g p) :
    MergeWay memo g (.frame i k x p.node) b
      (StackGraph.mergeFrame mode (.frame i k x p.node) x p b) := by
  refine unlessSame ha hb ?_
  cases b with
  | bottom j => exact roots ha hb (.inr rfl) nofun nofun
  | frame j k' y q =>
    refine .computed fun g' le => ?_
    exact (Grows.joinFrames (le _ ha) (le _ hb) (hp.mono le)).weaken
      fun _ _ _ ⟨hm, r⟩ => ⟨hm, fun _ _ => r⟩
  | choice j k' slots =>
    refine MergeWay.slots ha hb rfl (fun s hs p' hp' => ?_) ?_
    · rw [List.mem_singleton.mp hs] at hp'
      obtain rfl := Option.some.inj hp'
      exact hp
    · rintro ⟨_, e | e⟩ <;> cases e

theorem mergeChoice {i : Nat} {k : Key} {slots : List (Slot Node)}
    (ha : .choice i k slots ∈ g) (hb : b ∈ g)
    (hp : ∀ p ∈ Slot.parents slots, Joins memo g (mergeable mode p)) :
    MergeWay memo g (.choice i k slots) b
      (StackGraph.mergeChoice mode (.choice i k slots) (mergeables mode slots) b) := by
  refine unlessSame ha hb ?_
  by_cases bot : b.isBottom = true ∧ mode = .wildcard
  · rw [if_pos bot]
    have e := tree_eq_bottom_iff.mpr bot.1
    refine .known ⟨hb, fun _ => e.trans (Tree.merge_of_swallows ⟨bot.2, .inr e⟩).symm⟩ ?_
    exact .other fun e' => nomatch e.symm.trans e'
  · rw [if_neg bot]
    refine MergeWay.slots ha hb (map_slot_mergeables mode slots) (fun s hs p e => ?_) ?_
    · rw [mergeables_eq_map] at hs
      obtain ⟨t, ht, rfl⟩ := List.mem_map.mp hs
      obtain ⟨q, hq, rfl⟩ := Option.map_eq_some_iff.mp e
      exact hp q (Slot.mem_parents.mpr ⟨t, ht, hq⟩)
    · rintro ⟨wild, e | e⟩
      · cases e
      · exact bot ⟨tree_eq_bottom_iff.mp e, wild⟩

/-- The way of a merge, when the nodes below the left one are merged. -/
theorem of_joins (ha : a ∈ g) (hb : b ∈ g)
    (joins : ∀ p ∈ a.parents, Joins memo g (mergeable mode p)) :
    MergeWay memo g a b (StackGraph.merge mode a b) := by
  cases a with
  | bottom i => exact mergeBottom ha hb
  | frame i k x p => exact mergeFrame (p := mergeable mode p) ha hb (joins p List.mem_cons_self)
  | choice i k slots => exact mergeChoice ha hb joins

end MergeWay

namespace Grows

/-- Either way leads to the merge. -/
theorem way (ha : a ∈ g) (hb : b ∈ g) {act : GraphM μ Node} (h : MergeWay memo g a b act) :
    Grows False memo.toUpkeep g act (Merged honest mode · a b) := by
  cases h with
  | known h _ => exact .pure h
  | computed h => exact memoized ha hb fun g' le => (h g' le).weaken fun _ _ _ h => h.1

/-- **The merge of two nodes of a graph never fails, and is their merge.** -/
theorem merge (ha : a ∈ g) (hb : b ∈ g) :
    Grows False memo.toUpkeep g (StackGraph.merge mode a b) (Merged honest mode · a b) := by
  induction a using Node.induction generalizing g b with
  | step a ih =>
    refine way ha hb (.of_joins ha hb fun p hp => ⟨Graph.parent_mem ha hp, fun g' le q hq => ?_⟩)
    exact ih p hp (le p (Graph.parent_mem ha hp)) hq

/-- **Every merge goes one of the two ways.** -/
theorem mergeWay (ha : a ∈ g) (hb : b ∈ g) : MergeWay memo g a b (StackGraph.merge mode a b) :=
  .of_joins ha hb fun _ hp => ⟨Graph.parent_mem ha hp, fun _ le _ hq =>
    merge (le _ (Graph.parent_mem ha hp)) hq⟩

/-- **The merges of a list, from the left, never fail and are the merges of the trees.** -/
theorem mergeAll {nodes : List Node} (h : ∀ n ∈ nodes, n ∈ g) :
    Grows False memo.toUpkeep g (StackGraph.mergeAll mode nodes)
      fun g' n => n ∈ g' ∧ (honest → n.tree = Tree.mergeAll mode (nodes.map tree)) := by
  cases nodes with
  | nil => exact .pure ⟨g.empty_mem, fun _ => rfl⟩
  | cons first rest =>
    have fold (rest : List Node) : ∀ {g : Graph} {t : Tree} (n : Node), n ∈ g →
        (honest → n.tree = t) → (∀ m ∈ rest, m ∈ g) →
        Grows False memo.toUpkeep g (rest.foldlM (StackGraph.merge mode) n)
          fun g' n => n ∈ g' ∧ (honest → n.tree = (rest.map tree).foldl (Tree.merge mode) t) := by
      induction rest with
      | nil => exact fun n hn e _ => .pure ⟨hn, e⟩
      | cons m rest ih =>
        intro g t n hn e hrest
        obtain ⟨hm, hrest⟩ := List.forall_mem_cons.mp hrest
        rw [List.foldlM_cons]
        refine (merge hn hm).bind fun g' r le hr => ?_
        exact ih r hr.mem (fun ho => by rw [hr.tree_eq ho, e ho]) fun k hk => le k (hrest k hk)
    obtain ⟨hfirst, hrest⟩ := List.forall_mem_cons.mp h
    exact fold rest first hfirst (fun _ => rfl) hrest

end Grows

end StackGraph
