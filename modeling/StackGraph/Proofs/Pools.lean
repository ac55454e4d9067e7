import Mathlib.Data.List.Find
import Mathlib.Data.Set.Card
import StackGraph.Pool.Share
import StackGraph.Proofs.Equality
import StackGraph.Proofs.Growth

/-!
# Pools and trails

What a pool and a trail of nodes of a graph answer for a node stands for the same tree. A pool that
was filled node by node is canonical: it holds no bottom and one node of each tree. It is closed when
with a node it holds whatever lies below.

* `Graph.StandsFor` -- a node of the graph that has the tree of another;
* `Pool.Over`, `Trail.Over`, `Sharing.Over` -- pools and trails over a graph, which are asked by
  structure and by identity;
* `Pool.Canonical` -- one node for each tree, so that every node of the pool is found
  (`Pool.Canonical.find?_of_mem`); `Pool.Canonical.intern` says that putting a node in keeps this;
* `Pool.trees` -- the trees that the pool has, as many as nodes when it is canonical
  (`Pool.Canonical.size_eq`);
* `Pool.Closed` -- what lies below a node of the pool is in the pool, too, bottoms apart.
-/

namespace StackGraph

open Node

variable {g g' : Graph}

/-- The node `c` of the graph has the tree of `n`. -/
def Graph.StandsFor (g : Graph) (n c : Node) : Prop := c ∈ g ∧ c.tree = n.tree

theorem Graph.StandsFor.mono {n c : Node} (h : g.StandsFor n c) (le : g ≤ g') : g'.StandsFor n c :=
  ⟨le c h.1, h.2⟩

theorem Graph.StandsFor.of_eq {n m c : Node} (h : g.StandsFor n c) (e : n.tree = m.tree) :
    g.StandsFor m c :=
  ⟨h.1, h.2.trans e⟩

/-! ## 1. Pools and trails over a graph -/

/-- A pool of nodes of the graph. -/
def Pool.Over (g : Graph) (p : Pool) : Prop := ∀ n ∈ p.nodes, n ∈ g

/-- A trail of nodes of the graph, on which every node became one with its tree. -/
def Trail.Over (g : Graph) (t : Trail) : Prop :=
  ∀ step ∈ t.steps, step.1 ∈ g ∧ g.StandsFor step.1 step.2

/-- Pool and trail of a run. -/
def Sharing.Over (g : Graph) (s : Sharing) : Prop := s.pool.Over g ∧ s.trail.Over g

theorem Pool.Over.mono {p : Pool} (h : p.Over g) (le : g ≤ g') : p.Over g' :=
  fun n hn => le n (h n hn)

theorem Trail.Over.mono {t : Trail} (h : t.Over g) (le : g ≤ g') : t.Over g' :=
  fun step hs => ⟨le _ (h step hs).1, (h step hs).2.mono le⟩

theorem Pool.over_empty : Pool.empty.Over g := fun _ h => absurd h List.not_mem_nil

theorem Trail.over_empty : Trail.empty.Over g := fun _ h => absurd h List.not_mem_nil

/-- What a pool and a trail over the graph have to keep up: to be over it. -/
def Sharing.upkeep : Upkeep Sharing where
  Holds := Sharing.Over
  mono le h := ⟨h.1.mono le, h.2.mono le⟩

theorem Pool.Over.find? {p : Pool} {n c : Node} (h : p.Over g) (hn : n ∈ g)
    (found : p.find? n = some c) : g.StandsFor n c :=
  have hc := h c (Pool.mem_of_find?_eq_some found)
  ⟨hc, (Graph.beq_iff hc hn).mp (Pool.beq_of_find?_eq_some found)⟩

theorem Pool.intern_of_isBottom {n : Node} (h : n.isBottom = true) (p : Pool) :
    p.intern n = (Node.empty, p) := if_pos h

theorem Pool.Over.intern {p : Pool} {n : Node} (h : p.Over g) (hn : n ∈ g) :
    g.StandsFor n (p.intern n).1 ∧ (p.intern n).2.Over g := by
  cases bottom : n.isBottom with
  | true =>
    rw [Pool.intern_of_isBottom bottom]
    exact ⟨⟨g.empty_mem, (tree_eq_bottom_iff.mpr bottom).symm⟩, h⟩
  | false =>
    cases found : p.find? n with
    | some c =>
      rw [Pool.intern_of_find?_eq_some bottom found]
      exact ⟨h.find? hn found, h⟩
    | none =>
      rw [Pool.intern_of_find?_eq_none bottom found]
      refine ⟨⟨hn, rfl⟩, fun m hm => ?_⟩
      rcases List.mem_append.mp hm with hm | hm
      · exact h m hm
      · exact List.mem_singleton.mp hm ▸ hn

/-- **A pool is asked by structure**: nodes of one tree find the same. -/
theorem Pool.Over.find?_congr {p : Pool} {m n : Node} (h : p.Over g) (hm : m ∈ g) (hn : n ∈ g)
    (e : m.tree = n.tree) : p.find? m = p.find? n := by
  refine List.find?_congr fun k hk => Bool.eq_iff_iff.mpr ?_
  rw [Graph.beq_iff (h k hk) hm, Graph.beq_iff (h k hk) hn, e]

/-- Once a node was put in, another of its tree finds what became of it. -/
theorem Pool.Over.intern_intern {p : Pool} {m n : Node} (h : p.Over g) (hm : m ∈ g) (hn : n ∈ g)
    (e : m.tree = n.tree) : (p.intern m).2.intern n = p.intern m := by
  have bottoms := isBottom_eq_of_tree e
  cases bottom : m.isBottom with
  | true =>
    rw [Pool.intern_of_isBottom bottom, Pool.intern_of_isBottom (bottoms ▸ bottom)]
  | false =>
    have bottom' : n.isBottom = false := bottoms ▸ bottom
    have found : (p.intern m).2.find? n = some (p.intern m).1 := by
      rw [← (h.intern hm).2.find?_congr hm hn e]
      cases found : p.find? m with
      | some c =>
        rw [Pool.intern_of_find?_eq_some bottom found]
        exact found
      | none =>
        rw [Pool.intern_of_find?_eq_none bottom found]
        unfold Pool.find? at found ⊢
        rw [List.find?_append, found]
        simp
    rw [Pool.intern_of_find?_eq_some bottom' found]

/-- A trail is asked by identity, and an identity of the graph belongs to one node. -/
theorem Trail.Over.find? {t : Trail} {n c : Node} (h : t.Over g) (hn : n ∈ g)
    (found : t.find? n = some c) : g.StandsFor n c := by
  obtain ⟨step, hs, rfl⟩ := Option.map_eq_some_iff.mp found
  have hstep := h step (List.mem_of_find?_eq_some hs)
  have same : step.1.same n = true := by simpa using List.find?_some hs
  rw [Graph.eq_of_same hstep.1 hn same] at hstep
  exact hstep.2

theorem Trail.Over.insert {t : Trail} {n c : Node} (h : t.Over g) (hn : n ∈ g)
    (hc : g.StandsFor n c) : (t.insert n c).Over g := by
  obtain ⟨steps⟩ := t
  show ∀ step ∈ Trail.put n c steps, step.1 ∈ g ∧ g.StandsFor step.1 step.2
  induction steps with
  | nil =>
    intro step hs
    rw [List.mem_singleton.mp hs]
    exact ⟨hn, hc⟩
  | cons first rest ih =>
    obtain ⟨seen, known⟩ := first
    have hfirst := h _ List.mem_cons_self
    have hrest : Trail.Over g ⟨rest⟩ := fun step hs => h step (List.mem_cons_of_mem _ hs)
    intro step hs
    unfold Trail.put at hs
    by_cases same : seen.same n = true
    · rw [if_pos same] at hs
      rcases List.mem_cons.mp hs with rfl | hs
      · exact ⟨hfirst.1, hc.of_eq (congrArg tree (Graph.eq_of_same hfirst.1 hn same).symm)⟩
      · exact hrest step hs
    · rw [if_neg same] at hs
      rcases List.mem_cons.mp hs with rfl | hs
      · exact hfirst
      · exact ih hrest step hs

/-! ## 2. Canonical pools -/

namespace Pool

variable {p p' : Pool} {m n c : Node}

/-- A pool is part of another when the other has all of its nodes. -/
instance : LE Pool := ⟨fun p p' => ∀ n ∈ p.nodes, n ∈ p'.nodes⟩

theorem le_refl (p : Pool) : p ≤ p := fun _ h => h

theorem le_trans {p'' : Pool} (h : p ≤ p') (h' : p' ≤ p'') : p ≤ p'' := fun n hn => h' n (h n hn)

/-- The pool holds no bottom, and one node of each tree. -/
structure Canonical (p : Pool) : Prop where
  no_bottom : ∀ n ∈ p.nodes, n.isBottom = false
  distinct : (p.nodes.map tree).Nodup

theorem canonical_empty : Pool.empty.Canonical :=
  ⟨fun _ h => absurd h List.not_mem_nil, List.nodup_nil⟩

theorem Canonical.eq_of_tree (h : p.Canonical) (hm : m ∈ p.nodes) (hn : n ∈ p.nodes)
    (e : m.tree = n.tree) : m = n :=
  List.inj_on_of_nodup_map h.distinct hm hn e

/-- **A node of a canonical pool is the one that is found.** -/
theorem Canonical.find?_of_mem (h : p.Canonical) (covered : p.Over g) (hn : n ∈ p.nodes) :
    p.find? n = some n := by
  cases found : p.find? n with
  | none => exact absurd (beq_self n) (by simpa using List.find?_eq_none.mp found n hn)
  | some c =>
    have hc := covered.find? (covered n hn) found
    rw [h.eq_of_tree (mem_of_find?_eq_some found) hn hc.2]

/-- A new node has a tree that the pool does not have. -/
theorem Over.tree_ne_of_find?_eq_none (covered : p.Over g) (hn : n ∈ g) (new : p.find? n = none)
    (hm : m ∈ p.nodes) : m.tree ≠ n.tree := fun e =>
  absurd ((Graph.beq_iff (covered m hm) hn).mpr e) (by simpa using List.find?_eq_none.mp new m hm)

/-- Putting a node in leaves the pool as it is, or the node is new and comes behind the others. -/
theorem intern_stays_or_new (p : Pool) (n : Node) :
    (p.intern n).2 = p ∨
    n.isBottom = false ∧ p.find? n = none ∧ p.intern n = (n, ⟨p.nodes ++ [n]⟩) := by
  cases bottom : n.isBottom with
  | true => exact .inl (by rw [intern_of_isBottom bottom])
  | false =>
    cases found : p.find? n with
    | some c => exact .inl (by rw [intern_of_find?_eq_some bottom found])
    | none => exact .inr ⟨rfl, rfl, intern_of_find?_eq_none bottom found⟩

theorem le_intern (p : Pool) (n : Node) : p ≤ (p.intern n).2 := by
  rcases p.intern_stays_or_new n with same | ⟨_, _, e⟩
  · rw [same]
    exact p.le_refl
  · rw [e]
    exact fun m hm => List.mem_append_left _ hm

/-- What becomes of a node other than a bottom is in the pool. -/
theorem mem_intern (bottom : n.isBottom = false) : (p.intern n).1 ∈ (p.intern n).2.nodes := by
  cases found : p.find? n with
  | some c =>
    rw [intern_of_find?_eq_some bottom found]
    exact mem_of_find?_eq_some found
  | none =>
    rw [intern_of_find?_eq_none bottom found]
    exact List.mem_append_right _ List.mem_cons_self

/-- No other node is put in, and one that is new becomes itself. -/
theorem mem_or_new_of_mem_intern (h : m ∈ (p.intern n).2.nodes) :
    m ∈ p.nodes ∨ m = n ∧ (p.intern n).1 = n := by
  rcases p.intern_stays_or_new n with same | ⟨_, _, e⟩
  · exact .inl (same ▸ h)
  · rw [e] at h ⊢
    exact (List.mem_append.mp h).imp_right fun hm => ⟨List.mem_singleton.mp hm, rfl⟩

theorem mem_or_eq_of_mem_intern (h : m ∈ (p.intern n).2.nodes) : m ∈ p.nodes ∨ m = n :=
  (mem_or_new_of_mem_intern h).imp_right And.left

/-- **Putting a node in keeps a pool canonical.** -/
theorem Canonical.intern (h : p.Canonical) (covered : p.Over g) (hn : n ∈ g) :
    (p.intern n).2.Canonical := by
  rcases p.intern_stays_or_new n with same | ⟨bottom, new, e⟩
  · exact same.symm ▸ h
  · rw [e]
    refine ⟨fun m hm => ?_, ?_⟩
    · rcases List.mem_append.mp hm with hm | hm
      · exact h.no_bottom m hm
      · exact List.mem_singleton.mp hm ▸ bottom
    · show ((p.nodes ++ [n]).map tree).Nodup
      rw [List.map_append, List.nodup_append]
      refine ⟨h.distinct, List.nodup_singleton _, fun t ht u hu => ?_⟩
      obtain ⟨m, hm, rfl⟩ := List.mem_map.mp ht
      rw [List.mem_singleton.mp hu]
      exact covered.tree_ne_of_find?_eq_none hn new hm

/-- The node is a bottom, or the pool holds it. -/
def Settled (p : Pool) (n : Node) : Prop := n.isBottom = true ∨ n ∈ p.nodes

theorem Settled.mono (h : p.Settled n) (le : p ≤ p') : p'.Settled n := h.imp_right (le n)

/-- The trees of the nodes of the pool. -/
def trees (p : Pool) : Set Tree := {t | ∃ n ∈ p.nodes, n.tree = t}

theorem trees_empty : Pool.empty.trees = ∅ :=
  Set.eq_empty_iff_forall_notMem.mpr fun _ ⟨_, hn, _⟩ => absurd hn List.not_mem_nil

theorem trees_mono (le : p ≤ p') : p.trees ⊆ p'.trees := fun _ ⟨n, hn, e⟩ => ⟨n, le n hn, e⟩

/-- A node that is not found has a tree that the pool does not have. -/
theorem Over.tree_notMem (covered : p.Over g) (hn : n ∈ g) (new : p.find? n = none) :
    n.tree ∉ p.trees := fun ⟨_, hm, e⟩ => covered.tree_ne_of_find?_eq_none hn new hm e

/-- A node whose tree the pool does not have is not found. -/
theorem Over.find?_eq_none_iff (covered : p.Over g) (hn : n ∈ g) :
    p.find? n = none ↔ n.tree ∉ p.trees := by
  refine ⟨covered.tree_notMem hn, fun new => ?_⟩
  cases found : p.find? n with
  | none => rfl
  | some c => exact absurd ⟨c, mem_of_find?_eq_some found, (covered.find? hn found).2⟩ new

theorem Settled.tree_mem (h : p.Settled n) (ne : n.tree ≠ .bottom) : n.tree ∈ p.trees :=
  ⟨n, h.resolve_left fun bottom => ne (tree_eq_bottom_iff.mpr bottom), rfl⟩

/-- What becomes of a node that is put in is settled. -/
theorem settled_intern (p : Pool) (n : Node) : (p.intern n).2.Settled (p.intern n).1 := by
  cases bottom : n.isBottom with
  | true =>
    rw [intern_of_isBottom bottom]
    exact .inl rfl
  | false => exact .inr (mem_intern bottom)

/-- **Putting a node in brings in its tree**, unless it is a bottom. -/
theorem Over.trees_intern (covered : p.Over g) (hn : n ∈ g) :
    (p.intern n).2.trees = p.trees ∪ {t | n.tree = t ∧ t ≠ .bottom} := by
  ext t
  constructor
  · rintro ⟨m, hm, rfl⟩
    rcases mem_or_eq_of_mem_intern hm with old | rfl
    · exact .inl ⟨m, old, rfl⟩
    · cases bottom : m.isBottom with
      | true =>
        rw [intern_of_isBottom bottom] at hm
        exact .inl ⟨m, hm, rfl⟩
      | false => exact .inr ⟨rfl, by simp [tree_eq_bottom_iff, bottom]⟩
  · rintro (old | ⟨rfl, ne⟩)
    · exact trees_mono (p.le_intern n) old
    · have e := (covered.intern hn).1.2
      exact e ▸ (p.settled_intern n).tree_mem (e ▸ ne)

/-- **A canonical pool has as many nodes as trees.** -/
theorem Canonical.size_eq (h : p.Canonical) : p.size = p.trees.ncard := by
  have e : p.trees = ((p.nodes.map tree).toFinset : Set Tree) := by
    ext t
    simp [trees]
  rw [e, Set.ncard_coe_finset, List.toFinset_card_of_nodup h.distinct, List.length_map]
  rfl

/-- What lies below a node of the pool is in the pool, too, bottoms apart. -/
def Closed (p : Pool) : Prop := ∀ n ∈ p.nodes, ∀ q ∈ n.parents, p.Settled q

theorem closed_empty : Pool.empty.Closed := fun _ h => absurd h List.not_mem_nil

/-- In a closed pool everything is settled that can be reached from something settled. -/
theorem Closed.settled_of_reaches (h : p.Closed) (hn : p.Settled n) (r : Reaches n m) :
    p.Settled m := by
  induction r with
  | refl n => exact hn
  | step hp _ ih =>
    refine ih (hn.elim (fun bottom => ?_) fun hn => h _ hn _ hp)
    exact absurd hp (not_mem_parents_of_isBottom bottom)

end Pool

/-! ## 3. Trails into a pool -/

/-- What a node became is in the pool. -/
def Trail.Into (p : Pool) (t : Trail) : Prop := ∀ step ∈ t.steps, step.2 ∈ p.nodes

theorem Trail.into_empty {p : Pool} : Trail.empty.Into p := fun _ h => absurd h List.not_mem_nil

theorem Trail.Into.mono {p p' : Pool} {t : Trail} (h : t.Into p) (le : p ≤ p') : t.Into p' :=
  fun step hs => le _ (h step hs)

theorem Trail.Into.find? {p : Pool} {t : Trail} {n c : Node} (h : t.Into p)
    (found : t.find? n = some c) : c ∈ p.nodes := by
  obtain ⟨step, hs, rfl⟩ := Option.map_eq_some_iff.mp found
  exact h step (List.mem_of_find?_eq_some hs)

theorem Trail.Into.insert {p : Pool} {t : Trail} {n c : Node} (h : t.Into p) (hc : c ∈ p.nodes) :
    (t.insert n c).Into p := by
  obtain ⟨steps⟩ := t
  show ∀ step ∈ Trail.put n c steps, step.2 ∈ p.nodes
  induction steps with
  | nil =>
    intro step hs
    rw [List.mem_singleton.mp hs]
    exact hc
  | cons first rest ih =>
    have hfirst := h _ List.mem_cons_self
    have hrest : Trail.Into p ⟨rest⟩ := fun step hs => h step (List.mem_cons_of_mem _ hs)
    intro step hs
    unfold Trail.put at hs
    split at hs
    · rcases List.mem_cons.mp hs with rfl | hs
      · exact hc
      · exact hrest step hs
    · rcases List.mem_cons.mp hs with rfl | hs
      · exact hfirst
      · exact ih hrest step hs

/-- The pool is canonical, and the trail leads into it. -/
structure Sharing.Tidy (x : Sharing) : Prop where
  pool : x.pool.Canonical
  trail : x.trail.Into x.pool

end StackGraph
