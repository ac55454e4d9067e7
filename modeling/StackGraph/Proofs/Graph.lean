import StackGraph.Proofs.Trees

/-!
# Graphs

A graph is what the operations have made so far: a set of nodes in which everything below a node is
in the set as well, every node is sound, and an identity belongs to one node. New nodes take the
next identity, so a graph only grows.

* `Graph` -- the nodes made so far, with the next free identity;
* `Graph.add` -- a graph with one more node;
* `Graph.Within` -- the slot lists over nodes of a graph;
* `Graph.proper_tree`, `Graph.key_eq` -- in a graph every node has a proper tree, and its key is the
  key of its tree.
-/

namespace StackGraph

/-- The nodes that were made so far. -/
structure Graph where
  /-- Whether a node was made. -/
  Has : Node → Prop
  /-- The next identity. -/
  next : Nat
  has_empty : Has Node.empty
  has_parent : ∀ {n p : Node}, Has n → p ∈ n.parents → Has p
  sound : ∀ {n : Node}, Has n → n.Sound
  id_lt : ∀ {n : Node}, Has n → n.id < next
  eq_of_id : ∀ {m n : Node}, Has m → Has n → m.id = n.id → m = n

namespace Graph

instance : Membership Node Graph := ⟨fun g n => g.Has n⟩

/-- A graph is part of another when the other has all of its nodes. -/
instance : LE Graph := ⟨fun g g' => ∀ n ∈ g, n ∈ g'⟩

variable {g g' g'' : Graph} {m n p : Node}

theorem le_refl (g : Graph) : g ≤ g := fun _ h => h

theorem le_trans (h : g ≤ g') (h' : g' ≤ g'') : g ≤ g'' := fun n hn => h' n (h n hn)

/-! ## 1. The first node, and one more -/

/-- At the start there is the common bottom. -/
def start : Graph where
  Has n := n = Node.empty
  next := 1
  has_empty := rfl
  has_parent := by
    intro n p e hp
    rw [e] at hp
    exact absurd hp List.not_mem_nil
  sound := by
    rintro n rfl
    exact trivial
  id_lt := by
    rintro n rfl
    exact Nat.one_pos
  eq_of_id := by
    rintro m n rfl rfl _
    rfl

/-- The graph with one more node, which takes the next identity and lies over nodes of the graph. -/
def add (g : Graph) (n : Node) (hid : n.id = g.next) (hs : n.Sound) (hp : ∀ p ∈ n.parents, p ∈ g) :
    Graph where
  Has m := m ∈ g ∨ m = n
  next := g.next + 1
  has_empty := .inl g.has_empty
  has_parent := by
    rintro m p (hm | rfl) hmp
    · exact .inl (g.has_parent hm hmp)
    · exact .inl (hp p hmp)
  sound := by
    rintro m (hm | rfl)
    · exact g.sound hm
    · exact hs
  id_lt := by
    rintro m (hm | rfl)
    · exact Nat.lt_succ_of_lt (g.id_lt hm)
    · exact hid ▸ Nat.lt_succ_self _
  eq_of_id := by
    -- an old node never has the identity of the new one
    have old : ∀ {m}, m ∈ g → m.id ≠ n.id := fun hm e => by
      have lt := g.id_lt hm
      omega
    rintro m m' (hm | rfl) (hm' | rfl) e
    · exact g.eq_of_id hm hm' e
    · exact absurd e (old hm)
    · exact absurd e.symm (old hm')
    · rfl

section Add

variable {hid : n.id = g.next} {hs : n.Sound} {hp : ∀ p ∈ n.parents, p ∈ g}

theorem le_add : g ≤ g.add n hid hs hp := fun _ hm => .inl hm

theorem mem_add : n ∈ g.add n hid hs hp := .inr rfl

end Add

/-! ## 2. Nodes of a graph -/

theorem empty_mem (g : Graph) : Node.empty ∈ g := g.has_empty

theorem parent_mem (hn : n ∈ g) (hp : p ∈ n.parents) : p ∈ g := g.has_parent hn hp

theorem slot_parent_mem {s : Slot Node} (hn : n ∈ g) (hs : s ∈ n.slots) (hp : s.parent = some p) :
    p ∈ g :=
  parent_mem hn (Node.mem_parents_of_slot hs hp)

theorem mem_of_reaches (hn : n ∈ g) (r : Node.Reaches n m) : m ∈ g := by
  induction r with
  | refl => exact hn
  | step hp _ ih => exact ih (parent_mem hn hp)

theorem eq_of_same (hm : m ∈ g) (hn : n ∈ g) (h : m.same n = true) : m = n :=
  g.eq_of_id hm hn (Node.same_iff.mp h)

theorem normalSlots (hn : n ∈ g) : NormalSlots n.slots := (g.sound hn).normal

/-- **Every node of a graph has a proper tree.** -/
theorem proper_tree (hn : n ∈ g) : n.tree.Proper := by
  induction n using Node.induction with
  | step n ih => exact (g.sound hn).proper_tree fun p hp => ih p hp (parent_mem hn hp)

/-- **The key of a node is a function of its tree.** -/
theorem key_eq (hn : n ∈ g) : n.key = n.tree.key := by
  induction n using Node.induction with
  | step n ih => exact (g.sound hn).key_eq fun p hp => ih p hp (parent_mem hn hp)

/-! ## 3. Slots over a graph -/

/-- Everything below the slots is in the graph. -/
def Within (g : Graph) (slots : List (Slot Node)) : Prop :=
  ∀ s ∈ slots, ∀ p, s.parent = some p → p ∈ g

theorem within_nil : g.Within [] := fun _ h => absurd h List.not_mem_nil

theorem Within.cons_some {x : State} {slots : List (Slot Node)} (hp : p ∈ g) (h : g.Within slots) :
    g.Within (⟨x, some p⟩ :: slots) := by
  refine List.forall_mem_cons.mpr ⟨fun q e => ?_, h⟩
  rw [← Option.some.inj e]
  exact hp

theorem Within.cons_none {x : State} {slots : List (Slot Node)} (h : g.Within slots) :
    g.Within (⟨x, none⟩ :: slots) :=
  List.forall_mem_cons.mpr ⟨fun _ e => absurd e (Option.some_ne_none _).symm, h⟩

theorem Within.mono {slots : List (Slot Node)} (h : g.Within slots) (le : g ≤ g') :
    g'.Within slots := fun s hs p hp => le p (h s hs p hp)

theorem Within.tail {s : Slot Node} {slots : List (Slot Node)} (h : g.Within (s :: slots)) :
    g.Within slots := fun t ht => h t (List.mem_cons_of_mem _ ht)

theorem within_slots (hn : n ∈ g) : g.Within n.slots := fun _ hs _ hp => slot_parent_mem hn hs hp

/-- Slots over a graph are the same slots when what lies below them is the same by identity. -/
theorem Within.eq_of_ids {ss ts : List (Slot Node)} (hs : g.Within ss) (ht : g.Within ts)
    (e : ss.map (Slot.map Node.id) = ts.map (Slot.map Node.id)) : ss = ts := by
  induction ss generalizing ts with
  | nil => exact (List.map_eq_nil_iff.mp e.symm).symm
  | cons s ss ih =>
    cases ts with
    | nil => cases e
    | cons t ts =>
      obtain ⟨first, rest⟩ := List.cons.inj e
      obtain ⟨x, p⟩ := s
      obtain ⟨y, q⟩ := t
      obtain ⟨rfl, below⟩ := Slot.mk.inj first
      have parents : p = q := by
        cases p with
        | none =>
          cases q with
          | none => rfl
          | some q => cases below
        | some p =>
          cases q with
          | none => cases below
          | some q =>
            rw [g.eq_of_id (hs _ List.mem_cons_self p rfl) (ht _ List.mem_cons_self q rfl)
              (Option.some.inj below)]
      rw [parents, ih hs.tail ht.tail rest]

end Graph

end StackGraph
