import StackGraph.Proofs.Groupings

/-!
# What a merge stands for

In every session, an exact merge stands for the call histories of both operands and for no other. A
merge with wildcards stands for some of them that cover all: where only bottoms end a stack, these
are the histories of the union that no shorter one covers.

* `Node.IsChain`, `Node.NoChoiceEnds` -- nodes without choices, and nodes in which no choice has a
  slot of the bottom state;
* `Session.histories_exact_merge` -- **an exact merge is the union**;
* `Session.histories_wildcard_merge` -- **a merge with wildcards keeps the minimal histories**.
-/

namespace StackGraph

/-! ## 1. Choices below a node -/

namespace Node

/-- No choice can be reached from the node. -/
def IsChain (n : Node) : Prop := ∀ m, Reaches n m → m.kind ≠ .choice

/-- No choice that can be reached from the node has a slot of the bottom state. -/
def NoChoiceEnds (n : Node) : Prop :=
  ∀ m, Reaches n m → m.kind = .choice → State.bottom ∉ m.states

theorem IsChain.noChoiceEnds {n : Node} (h : n.IsChain) : n.NoChoiceEnds :=
  fun m r choice => absurd choice (h m r)

theorem isChain_bottom (i : Nat) : (bottom i).IsChain := by
  intro m r
  cases r with
  | refl => nofun
  | step hp _ => exact absurd hp List.not_mem_nil

theorem IsChain.frame {p : Node} (h : p.IsChain) (i : Nat) (k : Key) (x : State) :
    (frame i k x p).IsChain := by
  intro m r
  cases r with
  | refl => nofun
  | step hp r =>
    rw [List.mem_singleton.mp hp] at r
    exact h m r

/-- Whether a choice below a node ends a stack is a fact about its tree. -/
theorem noChoiceEnds_iff {n : Node} (h : n.tree.Proper) : n.NoChoiceEnds ↔ n.tree.NoChoiceEnds := by
  constructor
  · intro ends
    induction n using Node.induction with
    | step n ih =>
      have below : ∀ t ∈ n.tree.parents, t.NoChoiceEnds := fun t ht => by
        obtain ⟨p, hp, rfl⟩ := mem_parents_tree.mp ht
        exact ih p hp (h.parent ht) fun m r => ends m (.step hp r)
      cases n with
      | bottom i => exact .bottom
      | frame i k x p => exact .frame (below _ List.mem_cons_self)
      | choice i k slots =>
        refine h.noChoiceEnds ?_ below
        rw [states_tree]
        exact ends _ (.refl _) rfl
  · intro ends m r choice hm
    induction r with
    | refl n =>
      rw [← states_tree] at hm
      have e := tree_eq_bottom_iff.mp (ends.eq_bottom h hm)
      cases n with
      | bottom i => cases choice
      | frame i k x p => cases choice
      | choice i k slots => cases e
    | step hp _ ih =>
      have hp' := mem_parents_tree.mpr ⟨_, hp, rfl⟩
      exact ih (h.parent hp') (ends.parent hp') choice hm

end Node

/-! ## 2. Merges in a session -/

namespace Session

variable {a b : Node}

/-- **An exact merge stands for the histories of both operands, and for no other.** -/
theorem histories_exact_merge (commands : List (Command × Option String))
    (ha : (replay commands).Holds a) (hb : (replay commands).Holds b) :
    (replay commands).Yields (SessionM.plain (merge .exact a b)) fun r =>
      ∀ h, h ∈ r.histories ↔ h ∈ a.histories ∨ h ∈ b.histories := by
  obtain ⟨g, hs⟩ := over_replay commands
  refine hs.yields hs.2 ((Grows.mergePlain (hs.mem ha) (hs.mem hb)).weaken ?_)
  intro g' r _ hr h
  have er := hr.2
  rw [Node.histories, er]
  exact Tree.mem_histories_merge_exact (Graph.proper_tree (hs.mem ha))
    (Graph.proper_tree (hs.mem hb))

theorem histories_exact_merge_sample :
    ∃ a b, (replay sample).Holds a ∧ (replay sample).Holds b ∧ a.histories = [[3, 2]] ∧
      b.histories = [[3, 2], []] ∧
      (replay sample).Yields (SessionM.plain (merge .exact a b)) fun r =>
        ∀ h, h ∈ r.histories ↔ h ∈ a.histories ∨ h ∈ b.histories :=
  ⟨_, _, ⟨"a", rfl⟩, ⟨"b", rfl⟩, rfl, rfl, histories_exact_merge sample ⟨"a", rfl⟩ ⟨"b", rfl⟩⟩

/-- **A merge with wildcards stands for histories of the operands, and they cover all of them.**
    Where no choice of the operands ends a stack, no choice of the merge does, and its histories are
    the minimal ones. All that is merged with wildcards from chains is of this form. -/
theorem histories_wildcard_merge (commands : List (Command × Option String))
    (ha : (replay commands).Holds a) (hb : (replay commands).Holds b) :
    ((replay commands).Yields (SessionM.plain (merge .wildcard a b)) fun r =>
      (∀ h ∈ r.histories, h ∈ a.histories ∨ h ∈ b.histories) ∧
      (∀ h, h ∈ a.histories ∨ h ∈ b.histories → ∃ t ∈ r.histories, Covers t h) ∧
      (a.NoChoiceEnds → b.NoChoiceEnds → r.NoChoiceEnds ∧
        ∀ h, h ∈ r.histories ↔ (h ∈ a.histories ∨ h ∈ b.histories) ∧
          ∀ t, t ∈ a.histories ∨ t ∈ b.histories → Covers t h → t = h)) ∧
    ∀ p : Grouping Node, (∀ n ∈ p.members, (replay commands).Holds n ∧ n.IsChain) →
      (replay commands).Yields (SessionM.plain (p.merge .wildcard)) Node.NoChoiceEnds := by
  obtain ⟨g, hs⟩ := over_replay commands
  have pa := Graph.proper_tree (hs.mem ha)
  have pb := Graph.proper_tree (hs.mem hb)
  constructor
  · refine hs.yields hs.2 ((Grows.mergePlain (hs.mem ha) (hs.mem hb)).weaken ?_)
    intro g' r _ h
    obtain ⟨hr, er⟩ := h
    have hist : r.histories = (Tree.merge .wildcard a.tree b.tree).histories := congrArg _ er
    rw [hist]
    refine ⟨fun h => Tree.mem_of_mem_histories_merge pa pb, fun h => Tree.covered_by_merge pa pb,
      fun na nb => ?_⟩
    have na' := (Node.noChoiceEnds_iff pa).mp na
    have nb' := (Node.noChoiceEnds_iff pb).mp nb
    refine ⟨(Node.noChoiceEnds_iff (Graph.proper_tree hr)).mpr ?_,
      fun h => na'.mem_histories_merge nb' pa pb⟩
    rw [er]
    exact na'.merge nb' pa pb
  · intro p hp
    have mem : ∀ n ∈ p.members, n ∈ g := fun n hn => hs.mem (hp n hn).1
    have proper : ∀ n ∈ p.members, n.tree.Proper := fun n hn => Graph.proper_tree (mem n hn)
    refine hs.yields hs.2 ((Grows.groupingPlain mem).weaken ?_)
    intro g' r _ h
    obtain ⟨hr, er⟩ := h
    rw [Node.noChoiceEnds_iff (Graph.proper_tree hr), er]
    exact Grouping.noChoiceEnds_tree proper fun n hn =>
      (Node.noChoiceEnds_iff (proper n hn)).mp (hp n hn).2.noChoiceEnds

/-- Two chains are merged, and then both of them with a twin of the first. -/
theorem histories_wildcard_merge_sample :
    ∃ a c twin, (replay sample).Holds a ∧ (replay sample).Holds c ∧ (replay sample).Holds twin ∧
      a.NoChoiceEnds ∧ c.NoChoiceEnds ∧
      ((replay sample).Yields (SessionM.plain (merge .wildcard a c)) fun r =>
        (∀ h ∈ r.histories, h ∈ a.histories ∨ h ∈ c.histories) ∧
        (∀ h, h ∈ a.histories ∨ h ∈ c.histories → ∃ t ∈ r.histories, Covers t h) ∧
        (a.NoChoiceEnds → c.NoChoiceEnds → r.NoChoiceEnds ∧
          ∀ h, h ∈ r.histories ↔ (h ∈ a.histories ∨ h ∈ c.histories) ∧
            ∀ t, t ∈ a.histories ∨ t ∈ c.histories → Covers t h → t = h)) ∧
      (replay sample).Yields
        (SessionM.plain ((Grouping.both (.both (.single a) (.single c)) (.single twin)).merge .wildcard))
        Node.NoChoiceEnds := by
  have chain (i j : Nat) := ((Node.isChain_bottom 0).frame i (Key.frame 2 Key.bottom) 2).frame j
    (Key.frame 3 (Key.frame 2 Key.bottom)) 3
  have chain_c := (Node.isChain_bottom 6).frame 7 (Key.frame 5 Key.bottom) 5
  refine ⟨_, _, _, ⟨"a", rfl⟩, ⟨"c", rfl⟩, ⟨"twin", rfl⟩, (chain 1 2).noChoiceEnds,
    chain_c.noChoiceEnds, ?_⟩
  obtain ⟨merged, chains⟩ := histories_wildcard_merge sample ⟨"a", rfl⟩ ⟨"c", rfl⟩
  refine ⟨merged, chains _ (Grouping.forall_members_both.mpr
    ⟨Grouping.forall_members_both.mpr ⟨?_, ?_⟩, ?_⟩)⟩
  · exact List.forall_mem_singleton.mpr ⟨⟨"a", rfl⟩, chain 1 2⟩
  · exact List.forall_mem_singleton.mpr ⟨⟨"c", rfl⟩, chain_c⟩
  · exact List.forall_mem_singleton.mpr ⟨⟨"twin", rfl⟩, chain 3 4⟩

end Session

end StackGraph
