import StackGraph.CallStack
import StackGraph.Proofs.Growth

/-!
# What the node makers make

Every operation that makes nodes grows the graph by sound nodes, and the tree of its result is what
the same operation gives on trees.

* `Grows.push` -- one state over a node;
* `Grows.ofNormal`, `Grows.ofSlots` -- a node from its slots, which fails only when the slots are not
  normal;
* `Grows.chain`, `Grows.tower`, `Grows.ofLists`, `Grows.toNode` -- the makers put together from
  these.
-/

namespace StackGraph

/-- States pushed one over the other, the first one deepest, as a tree. -/
def Tree.chain (base : Tree) (states : List State) : Tree :=
  states.foldl (fun t x => Tree.ofSlots [⟨x, some t⟩]) base

namespace Grows

open Node

variable {τ : Type} {inv : Upkeep τ} {g : Graph}

theorem push {below : Node} (hb : below ∈ g) (state : State) :
    Grows (state = State.bottom ∧ below.isBottom = false) inv g (Node.push below state)
      fun g' n => n ∈ g' ∧ n.tree = Tree.ofSlots [⟨state, some below.tree⟩] := by
  unfold Node.push
  by_cases e : state = State.bottom
  · rw [if_pos e]
    have tree_eq : Tree.ofSlots [⟨state, some below.tree⟩] = .bottom := if_pos e
    by_cases h : below.isBottom = true
    · rw [if_pos h]
      exact .pure ⟨g.empty_mem, tree_eq.symm⟩
    · rw [if_neg h]
      exact .throw ⟨e, Bool.eq_false_iff.mpr h⟩
  · rw [if_neg e]
    have made : Grows False inv g _ _ :=
      make (fun id => .frame id (Key.frame state below.key) state below) rfl ⟨e, rfl⟩
        fun p hp => List.mem_singleton.mp hp ▸ hb
    refine made.mono False.elim fun g' n _ ⟨hn, en⟩ => ⟨hn, ?_⟩
    rw [en, Tree.ofSlots_frame e]
    rfl

/-- **A normal list of slots becomes a node with these very slots.** -/
theorem ofNormal {slots : List (Slot Node)} (h : NormalSlots slots) (hp : g.Within slots) :
    Grows False inv g (Node.ofSlots slots) fun g' n => n ∈ g' ∧ n.slots = slots := by
  have fault := fault?_eq_none_iff.mpr ⟨h.ne_nil, h.ascending, h.no_orphan⟩
  unfold Node.ofSlots
  rw [fault]
  rcases h.kinds with rfl | ⟨x, p, hx, rfl⟩ | proper
  · show Grows False inv g (ofSlot ⟨State.bottom, none⟩) _
    rw [ofSlot_bottom]
    exact .pure ⟨g.empty_mem, rfl⟩
  · show Grows False inv g (Node.push p x) _
    unfold Node.push
    rw [if_neg hx]
    have made : Grows False inv g _ _ :=
      make (fun id => .frame id (Key.frame x p.key) x p) rfl ⟨hx, rfl⟩ fun q hq => by
        rw [List.mem_singleton.mp hq]
        exact hp _ List.mem_cons_self p rfl
    exact made.weaken fun g' n _ ⟨hn, en⟩ => ⟨hn, by rw [en]; rfl⟩
  · match slots, proper.1 with
    | s :: t :: rest, _ =>
      have made : Grows False inv g _ _ :=
        make (fun id =>
            .choice id (Key.choice ((s :: t :: rest).map (Slot.map key))) (s :: t :: rest))
          rfl ⟨by simp, fault, rfl⟩ fun p h => by
            obtain ⟨u, hu, e⟩ := mem_parents.mp h
            exact hp u hu p e
      exact made.weaken fun g' n _ ⟨hn, en⟩ => ⟨hn, by rw [en]; rfl⟩

/-- **A node from its slots has the tree of these slots.** -/
theorem ofSlots {slots : List (Slot Node)} (hp : g.Within slots) :
    Grows (¬ NormalSlots slots) inv g (Node.ofSlots slots)
      fun g' n => n ∈ g' ∧ n.tree = Tree.ofSlots (slots.map (Slot.map tree)) := by
  by_cases normal : NormalSlots slots
  · refine (ofNormal normal hp).mono False.elim fun g' n _ ⟨hn, e⟩ => ⟨hn, ?_⟩
    rw [← e, ← slots_tree, (Graph.proper_tree hn).ofSlots_slots]
  · unfold Node.ofSlots
    cases fault : fault? slots with
    | some failure => exact .throw normal
    | none =>
      obtain ⟨ne, asc, orphan⟩ := fault?_eq_none_iff.mp fault
      match slots with
      | [] => exact absurd rfl ne
      | [⟨x, none⟩] =>
        obtain rfl : x = State.bottom := by
          by_contra ne
          exact orphan _ List.mem_cons_self ⟨rfl, ne⟩
        exact absurd normalSlots_bottom normal
      | [⟨x, some p⟩] => exact (push (hp _ List.mem_cons_self p rfl) x).mayFailFor fun _ => normal
      | s :: t :: rest => exact absurd (Tree.ProperSlots.normal ⟨by simp, asc, orphan⟩) normal

/-- Two slots in their order make a choice. -/
theorem ofPair {s t : Slot Node} (lt : s.state < t.state) (hs : ¬ s.IsOrphan) (ht : ¬ t.IsOrphan)
    (hp : g.Within [s, t]) :
    Grows False inv g (Node.ofSlots [s, t])
      fun g' n => n ∈ g' ∧ n.tree = .choice [s.map tree, t.map tree] :=
  ((ofSlots hp).mayFailFor fun h => h (normalSlots_pair lt hs ht)).weaken
    fun _ _ _ ⟨hn, en⟩ => ⟨hn, en.trans (Tree.ofSlots_of_two_le (Nat.le_refl 2))⟩

theorem chain {states : List State} {base : Node} (hb : base ∈ g) :
    Grows (State.bottom ∈ states) inv g (Node.chain base states)
      fun g' n => n ∈ g' ∧ n.tree = base.tree.chain states := by
  unfold Node.chain
  induction states generalizing g base with
  | nil => exact .pure ⟨hb, rfl⟩
  | cons x states ih =>
    rw [List.foldlM_cons]
    have first : Grows (State.bottom ∈ x :: states) inv g (Node.push base x) _ :=
      (push hb x).mayFailFor fun h => List.mem_cons.mpr (.inl h.1.symm)
    refine first.bind fun g' n _ ⟨hn, en⟩ => ?_
    refine (ih hn).mono (List.mem_cons_of_mem x) fun g'' m _ ⟨hm, em⟩ => ⟨hm, ?_⟩
    rw [em, en]
    rfl

theorem ofLists {states : List State} {parents : List (Option Node)}
    (hp : ∀ o ∈ parents, ∀ p, o = some p → p ∈ g) :
    Grows True inv g (Node.ofLists states parents) fun g' n => n ∈ g' := by
  unfold Node.ofLists
  split
  · have below : g.Within (List.zipWith Slot.mk states parents) := by
      intro s hs p e
      rw [← List.map_uncurry_zip_eq_zipWith] at hs
      obtain ⟨⟨x, o⟩, ho, rfl⟩ := List.mem_map.mp hs
      exact hp o (List.of_mem_zip ho).2 p e
    exact (ofSlots below).mono (fun _ => trivial) fun _ _ _ h => h.1
  · exact .throw trivial

theorem tower {states : List State} {depth : Nat} {base : Node} (hb : base ∈ g) :
    Grows True inv g (Node.tower base states depth) fun g' n => n ∈ g' := by
  induction depth generalizing g base with
  | zero => exact .pure hb
  | succ depth ih =>
    refine (ofLists fun o ho p e => ?_).bind fun g' n _ hn => ih hn
    obtain ⟨_, _, rfl⟩ := List.mem_map.mp ho
    cases e
    exact hb

/-- The node of a call stack. -/
theorem toNode (net : Network) (stack : CallStack) :
    Grows True inv g (CallStack.toNode net stack) fun g' n => n ∈ g' := by
  unfold CallStack.toNode
  refine lift.mayFail.bind fun g₁ states _ _ => (emit _).bind fun g₂ _ _ _ => ?_
  exact (chain g₂.empty_mem).mono (fun _ => trivial) fun _ _ _ h => h.1

end Grows

end StackGraph
