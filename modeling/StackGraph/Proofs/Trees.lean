import StackGraph.Node.Reach
import StackGraph.Proofs.Slots

/-!
# Trees by their slots

A tree that a node can have is determined by its slots, and its slots are a normal list. So a
statement about such trees is a statement about what they hold at each state, and it is proved by
induction on what lies below.

* `Tree.induction`, `Node.induction` -- what holds of a tree or node when it holds of everything
  below it holds of all;
* `Tree.Proper.ofSlots_slots`, `Tree.slots_ofSlots` -- proper trees and normal lists of slots are
  the same thing;
* `Tree.Proper.ext` -- proper trees are equal when they hold the same at every state;
* `Tree.key` -- the structural key as a function of the tree;
* `Tree.Reaches`, `Node.tree_reaches_iff` -- what lies below a tree, and below a node;
* `Tree.ReachesNew` -- what lies below a tree and is reached before anything that is known.
-/

namespace StackGraph

namespace Tree

/-! ## 1. What lies below a tree -/

/-- The trees below the slots of a tree, in slot order. -/
def parents (t : Tree) : List Tree := Slot.parents t.slots

theorem mem_parents {t p : Tree} : p ∈ t.parents ↔ ∃ s ∈ t.slots, s.parent = some p :=
  Slot.mem_parents

theorem mem_parents_of_at? {t p : Tree} {x : State} (h : Slot.at? x t.slots = some (some p)) :
    p ∈ t.parents :=
  mem_parents.mpr ⟨_, Slot.mem_of_at?_eq_some h, rfl⟩

theorem sizeOf_lt_of_mem_parents {t p : Tree} (h : p ∈ t.parents) : sizeOf p < sizeOf t := by
  obtain ⟨⟨state, parent⟩, hs, rfl⟩ := mem_parents.mp h
  cases t with
  | bottom =>
    have e := List.mem_singleton.mp hs
    cases e
  | frame x q =>
    have e := List.mem_singleton.mp hs
    cases e
    rw [frame.sizeOf_spec]
    omega
  | choice slots =>
    have lt := List.sizeOf_lt_of_mem (show _ ∈ slots from hs)
    rw [Slot.mk.sizeOf_spec, Option.some.sizeOf_spec] at lt
    rw [choice.sizeOf_spec]
    omega

/-- **Induction on what lies below a tree.** -/
theorem induction {motive : Tree → Prop} (step : ∀ t, (∀ p ∈ t.parents, motive p) → motive t)
    (t : Tree) : motive t :=
  step t fun p _ => induction step p
termination_by sizeOf t
decreasing_by exact sizeOf_lt_of_mem_parents ‹_›

/-! ## 2. Proper trees and normal lists -/

/-- The slots of a proper tree are normal. -/
theorem Proper.normal {t : Tree} (h : Proper t) : NormalSlots t.slots := by
  cases h with
  | bottom => exact normalSlots_bottom
  | frame hx _ => exact normalSlots_frame hx _
  | choice hs _ => exact hs.normal

/-- What lies below a proper tree is proper. -/
theorem Proper.parent {t p : Tree} (h : Proper t) (hp : p ∈ t.parents) : Proper p := by
  obtain ⟨s, hs, e⟩ := mem_parents.mp hp
  cases h with
  | bottom =>
    rw [List.mem_singleton.mp hs] at e
    cases e
  | frame _ below =>
    rw [List.mem_singleton.mp hs] at e
    cases e
    exact below
  | choice _ below => exact below s hs p e

theorem ofSlots_frame {x : State} (hx : x ≠ State.bottom) (p : Tree) :
    ofSlots [⟨x, some p⟩] = frame x p := if_neg hx

theorem ofSlots_of_two_le {slots : List (Slot Tree)} (two : 2 ≤ slots.length) :
    ofSlots slots = choice slots := by
  match slots, two with
  | ⟨_, none⟩ :: _ :: _, _ => rfl
  | ⟨_, some _⟩ :: _ :: _, _ => rfl

/-- A proper tree is made from its slots. -/
theorem Proper.ofSlots_slots {t : Tree} (h : Proper t) : ofSlots t.slots = t := by
  cases h with
  | bottom => rfl
  | frame hx _ => exact ofSlots_frame hx _
  | choice proper _ => exact ofSlots_of_two_le proper.1

/-- A tree made from a normal list has the list for its slots. -/
theorem slots_ofSlots {slots : List (Slot Tree)} (h : NormalSlots slots) :
    (ofSlots slots).slots = slots := by
  rcases h.kinds with rfl | ⟨x, p, hx, rfl⟩ | proper
  · rfl
  · rw [ofSlots_frame hx]
    rfl
  · rw [ofSlots_of_two_le proper.1]
    rfl

/-- A normal list with proper trees below makes a proper tree. -/
theorem proper_ofSlots {slots : List (Slot Tree)} (h : NormalSlots slots)
    (below : ∀ s ∈ slots, ∀ p, s.parent = some p → Proper p) : Proper (ofSlots slots) := by
  rcases h.kinds with rfl | ⟨x, p, hx, rfl⟩ | proper
  · exact .bottom
  · rw [ofSlots_frame hx]
    exact .frame hx (below _ List.mem_cons_self p rfl)
  · rw [ofSlots_of_two_le proper.1]
    exact .choice proper below

/-- **Proper trees are equal when they hold the same at every state.** -/
theorem Proper.ext {a b : Tree} (ha : Proper a) (hb : Proper b)
    (h : ∀ x, Slot.at? x a.slots = Slot.at? x b.slots) : a = b := by
  rw [← ha.ofSlots_slots, ← hb.ofSlots_slots, ha.normal.ascending.ext_at? hb.normal.ascending h]

theorem Proper.eq_bottom_of_states {t : Tree} (h : Proper t)
    (hs : ∀ x ∈ Slot.states t.slots, x = State.bottom) : t = .bottom := by
  rw [← h.ofSlots_slots, h.normal.eq_bottom_of_states hs]
  rfl

/-! ## 3. Keys of trees -/

mutual

/-- The structural key that every node of a tree has. -/
def key : Tree → Key
  | .bottom => Key.bottom
  | .frame state parent => Key.frame state (key parent)
  | .choice slots => Key.choice (keySlots slots)

/-- The slots with the keys of what lies below them. -/
def keySlots : List (Slot Tree) → List (Slot Key)
  | [] => []
  | ⟨state, none⟩ :: rest => ⟨state, none⟩ :: keySlots rest
  | ⟨state, some parent⟩ :: rest => ⟨state, some (key parent)⟩ :: keySlots rest

end

theorem keySlots_eq_map (slots : List (Slot Tree)) : keySlots slots = slots.map (Slot.map key) := by
  induction slots with
  | nil => rfl
  | cons s rest ih =>
    obtain ⟨state, parent⟩ := s
    cases parent <;> simp [keySlots, ih, Slot.map]

end Tree

namespace Node

/-! ## 4. The tree of a node -/

/-- **Induction on what lies below a node.** -/
theorem induction {motive : Node → Prop} (step : ∀ n, (∀ p ∈ n.parents, motive p) → motive n)
    (n : Node) : motive n :=
  step n fun p _ => induction step p
termination_by sizeOf n
decreasing_by exact sizeOf_lt_of_mem_parents ‹_›

theorem mem_parents_of_slot {n p : Node} {s : Slot Node} (hs : s ∈ n.slots)
    (hp : s.parent = some p) : p ∈ n.parents :=
  mem_parents.mpr ⟨s, hs, hp⟩

/-- The slots of a sound node are normal. -/
theorem Sound.normal {n : Node} (h : n.Sound) : NormalSlots n.slots := by
  cases n with
  | bottom id => exact normalSlots_bottom
  | frame id key state parent => exact normalSlots_frame h.1 parent
  | choice id key slots =>
    obtain ⟨two, fault, _⟩ := h
    obtain ⟨_, asc, orphan⟩ := fault?_eq_none_iff.mp fault
    exact Tree.ProperSlots.normal ⟨two, asc, orphan⟩

/-- A sound node over nodes with proper trees has a proper tree. -/
theorem Sound.proper_tree {n : Node} (h : n.Sound) (below : ∀ p ∈ n.parents, p.tree.Proper) :
    n.tree.Proper := by
  cases n with
  | bottom id => exact .bottom
  | frame id key state parent => exact .frame h.1 (below parent List.mem_cons_self)
  | choice id key slots =>
    obtain ⟨two, fault, _⟩ := h
    obtain ⟨_, asc, orphan⟩ := fault?_eq_none_iff.mp fault
    unfold tree
    rw [treeSlots_eq_map]
    refine .choice ⟨by simpa using two, (Slot.ascending_map tree).mpr asc, ?_⟩ ?_
    · intro t ht
      obtain ⟨s, hs, rfl⟩ := List.mem_map.mp ht
      exact fun o => orphan s hs ((Slot.isOrphan_map tree s).mp o)
    · intro t ht q hq
      obtain ⟨s, hs, rfl⟩ := List.mem_map.mp ht
      obtain ⟨p, hp, rfl⟩ := Option.map_eq_some_iff.mp hq
      exact below p (mem_parents_of_slot hs hp)

/-- A sound node whose parents have the keys of their trees has the key of its tree. -/
theorem Sound.key_eq {n : Node} (h : n.Sound) (below : ∀ p ∈ n.parents, p.key = p.tree.key) :
    n.key = n.tree.key := by
  cases n with
  | bottom id => rfl
  | frame id key state parent =>
    have hp := below parent List.mem_cons_self
    have e : key = Key.frame state parent.key := h.2
    rw [hp] at e
    exact e
  | choice id key slots =>
    have e : key = Key.choice (slots.map (Slot.map Node.key)) := h.2.2
    have step : ∀ s ∈ slots, s.map Node.key = (s.map tree).map Tree.key := by
      rintro ⟨x, parent⟩ hs
      cases parent with
      | none => rfl
      | some p => simp [Slot.map, below p (mem_parents_of_slot hs rfl)]
    show key = Key.choice (Tree.keySlots (treeSlots slots))
    rw [e, Tree.keySlots_eq_map, treeSlots_eq_map, List.map_map, List.map_congr_left step]
    rfl

/-- A node is a bottom when its tree is. -/
theorem tree_eq_bottom_iff {n : Node} : n.tree = .bottom ↔ n.isBottom = true := by
  cases n <;> simp [tree, isBottom]

/-- Nodes of one tree are bottoms together. -/
theorem isBottom_eq_of_tree {m n : Node} (e : m.tree = n.tree) : m.isBottom = n.isBottom :=
  Bool.eq_iff_iff.mpr (by rw [← tree_eq_bottom_iff, ← tree_eq_bottom_iff, e])

theorem states_tree (n : Node) : Slot.states n.tree.slots = n.states := by
  rw [slots_tree, Slot.states_map]
  rfl

theorem mem_parents_tree {n : Node} {t : Tree} :
    t ∈ n.tree.parents ↔ ∃ p ∈ n.parents, p.tree = t := by
  simp only [Tree.mem_parents, slots_tree, mem_parents, List.mem_map]
  constructor
  · rintro ⟨_, ⟨s, hs, rfl⟩, e⟩
    obtain ⟨p, hp, rfl⟩ := Option.map_eq_some_iff.mp e
    exact ⟨p, ⟨s, hs, hp⟩, rfl⟩
  · rintro ⟨p, ⟨s, hs, hp⟩, rfl⟩
    exact ⟨s.map tree, ⟨s, hs, rfl⟩, Option.map_eq_some_iff.mpr ⟨p, hp, rfl⟩⟩

end Node

/-- Nothing lies below a bottom. -/
theorem Node.not_mem_parents_of_isBottom {n p : Node} (h : n.isBottom = true) : p ∉ n.parents := by
  cases n with
  | bottom i => exact List.not_mem_nil
  | frame i k x q => cases h
  | choice i k slots => cases h

/-! ## 5. What can be reached -/

/-- `Reaches t u`: the tree `u` is `t` or lies below it, at any depth. -/
inductive Tree.Reaches : Tree → Tree → Prop where
  | refl (t : Tree) : Reaches t t
  | step {t p u : Tree} (h : p ∈ t.parents) (r : Reaches p u) : Reaches t u

namespace Tree

/-- `ReachesNew known t u`: the tree `u` is reached from `t` on a way on which no tree is known, and
    it is not the bottom. A way that comes to a known tree goes no further. -/
inductive ReachesNew (known : Set Tree) : Tree → Tree → Prop where
  | refl {t : Tree} (new : t ∉ known) (ne : t ≠ .bottom) : ReachesNew known t t
  | step {t p u : Tree} (new : t ∉ known) (h : p ∈ t.parents) (r : ReachesNew known p u) :
    ReachesNew known t u

namespace ReachesNew

variable {known known' : Set Tree} {t u : Tree}

theorem reaches (h : ReachesNew known t u) : t.Reaches u := by
  induction h with
  | refl => exact .refl _
  | step _ hp _ ih => exact .step hp ih

/-- The more is known, the less is reached. -/
theorem anti (h : ReachesNew known' t u) (le : known ⊆ known') : ReachesNew known t u := by
  induction h with
  | refl new ne => exact .refl (fun h => new (le h)) ne
  | step new hp _ ih => exact .step (fun h => new (le h)) hp ih

end ReachesNew

end Tree

namespace Node

/-- **The trees of what a node reaches are what its tree reaches.** -/
theorem tree_reaches_iff {n : Node} {t : Tree} :
    n.tree.Reaches t ↔ ∃ m, Reaches n m ∧ m.tree = t := by
  constructor
  · intro r
    generalize e : n.tree = u at r
    induction r generalizing n with
    | refl u => exact ⟨n, .refl n, e⟩
    | step hp _ ih =>
      subst e
      obtain ⟨p, hp', e'⟩ := mem_parents_tree.mp hp
      obtain ⟨m, r, em⟩ := ih e'
      exact ⟨m, .step hp' r, em⟩
  · rintro ⟨m, r, rfl⟩
    induction r with
    | refl n => exact .refl _
    | step hp _ ih => exact .step (mem_parents_tree.mpr ⟨_, hp, rfl⟩) ih

end Node

end StackGraph
