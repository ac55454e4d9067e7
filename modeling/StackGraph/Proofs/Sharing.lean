import StackGraph.Proofs.Building
import StackGraph.Proofs.Pools

/-!
# Sharing a whole ancestry

Sharing never fails, whatever nodes of the graph the pool and the trail hold, and its result has the
tree of the node. The pool only grows, and by trees that are reached from the node before any tree
that the pool has. Where the pool is canonical and the trail leads into it, this stays so, and what a
node became is in the pool; so is what lies below a node that came in. As with honest memos, `tidy`
is the proposition under which pool and trail are known to be so, and both cases are treated at once.

* `Pool.Advance` -- how a pool goes on; `Pool.Advance.closed` says that a closed pool stays closed,
  and `Pool.Advance.trees_eq` which trees it has when a node was shared;
* `Shares` -- a computation that succeeds and lets them go on so, with its rules;
* `Shares.settle` -- one node, given what lies below it;
* `Shares.share` -- **a whole ancestry**, by induction on the node;
* `Grows.intern`, `Grows.share` -- what holds of every pool and every trail.
-/

namespace StackGraph

open Node

/-- In a graph what a node became takes its place. -/
theorem Graph.replacement_eq {g : Graph} {n c : Node} (hn : n ∈ g) (hc : c ∈ g) :
    replacement n c = c := by
  unfold replacement
  split
  · exact (Graph.eq_of_same hc hn ‹_›).symm
  · rfl

/-- Slots over the trees that the slots of a node are over are normal, like these. -/
theorem Graph.normalSlots_of_trees {g : Graph} {n : Node} {slots : List (Slot Node)} (hn : n ∈ g)
    (trees : slots.map (Slot.map tree) = n.tree.slots) : NormalSlots slots := by
  rw [← normalSlots_map tree, trees]
  exact (Graph.proper_tree hn).normal

/-- Nodes of a graph have one tree when their slots are over the same trees. -/
theorem Graph.tree_eq_of_slots {g g' : Graph} {m n : Node} (hm : m ∈ g') (hn : n ∈ g)
    (e : m.slots.map (Slot.map tree) = n.tree.slots) : m.tree = n.tree := by
  rw [← (Graph.proper_tree hm).ofSlots_slots, slots_tree, e, (Graph.proper_tree hn).ofSlots_slots]

/-! ## 1. Computations on pool and trail -/

/-- How a pool goes on: it keeps its nodes, every new node has one of the trees that may come in, and
    if it is tidy then it has what lies below a new node. -/
structure Pool.Advance (tidy : Prop) (below : Tree → Prop) (p p' : Pool) : Prop where
  kept : p ≤ p'
  new : ∀ n ∈ p'.nodes, n ∈ p.nodes ∨ below n.tree
  settled : tidy → ∀ n ∈ p'.nodes, n ∈ p.nodes ∨ ∀ q ∈ n.parents, p'.Settled q

namespace Pool.Advance

variable {tidy : Prop} {below : Tree → Prop} {p p' p'' : Pool}

theorem refl (p : Pool) : p.Advance tidy below p :=
  ⟨p.le_refl, fun _ h => .inl h, fun _ _ h => .inl h⟩

theorem trans (h : p.Advance tidy below p') (h' : p'.Advance tidy below p'') :
    p.Advance tidy below p'' where
  kept := Pool.le_trans h.kept h'.kept
  new n hn := (h'.new n hn).elim (h.new n) .inr
  settled ht n hn :=
    (h'.settled ht n hn).elim
      (fun hn => (h.settled ht n hn).imp_right fun hq q hp => (hq q hp).mono h'.kept) .inr

/-- A closed pool stays closed. -/
theorem closed (h : p.Advance tidy below p') (ht : tidy) (hc : p.Closed) : p'.Closed := by
  intro n hn q hq
  rcases h.settled ht n hn with old | new
  · exact (hc n old q hq).mono h.kept
  · exact new q hq

/-- What is reached from a node of the pool before any tree that the pool had before, the pool has. -/
theorem mem_of_reachesNew (h : p.Advance tidy below p') (ht : tidy) {n : Node} (hn : p'.Settled n)
    {t : Tree} (r : n.tree.ReachesNew p.trees t) : t ∈ p'.trees := by
  generalize e : n.tree = u at r
  induction r generalizing n with
  | refl _ ne => exact e ▸ hn.tree_mem (e ▸ ne)
  | step new hp _ ih =>
    subst e
    obtain ⟨q, hq, e⟩ := mem_parents_tree.mp hp
    refine ih ?_ e
    have mem := hn.resolve_left fun bottom => not_mem_parents_of_isBottom bottom hq
    rcases h.settled ht n mem with old | settled
    · exact absurd ⟨n, old, rfl⟩ new
    · exact settled q hq

/-- **The trees that a pool has after a node was shared in it** are those it had and those that are
    reached from the node before any of them. -/
theorem trees_eq {n c : Node} (h : p.Advance tidy (n.tree.ReachesNew p.trees) p') (ht : tidy)
    (hc : p'.Settled c) (e : c.tree = n.tree) :
    p'.trees = p.trees ∪ {t | n.tree.ReachesNew p.trees t} := by
  ext t
  constructor
  · rintro ⟨m, hm, rfl⟩
    exact (h.new m hm).imp (fun old => ⟨m, old, rfl⟩) id
  · rintro (old | r)
    · exact Pool.trees_mono h.kept old
    · have r : n.tree.ReachesNew p.trees t := r
      exact h.mem_of_reachesNew ht hc (e ▸ r)

end Pool.Advance

/-- An arena over the graph with a pool and a trail over the graph, which are tidy under `tidy`. -/
structure Sharing.At (tidy : Prop) (g : Graph) (s : Arena Sharing) : Prop where
  next : s.next = g.next
  covered : s.table.Over g
  tidy : tidy → s.table.Tidy

/-- From an arena over the graph `g`, the computation succeeds over a larger graph, lets the pool go
    on, and its result satisfies `post`. -/
def Shares {α : Type} (tidy : Prop) (below : Tree → Prop) (g : Graph) (s : Arena Sharing)
    (act : GraphM Sharing α) (post : Graph → Pool → α → Prop) : Prop :=
  Sharing.At tidy g s →
    ∃ a s' g', act s = .ok a s' ∧ g ≤ g' ∧ Sharing.At tidy g' s' ∧
      s.table.pool.Advance tidy below s'.table.pool ∧ post g' s'.table.pool a

namespace Shares

variable {α β : Type} {tidy : Prop} {below : Tree → Prop} {g : Graph} {s : Arena Sharing}
  {act : GraphM Sharing α} {post : Graph → Pool → α → Prop}

protected theorem pure {a : α} (h : post g s.table.pool a) :
    Shares tidy below g s (pure a) post :=
  fun hs => ⟨a, s, g, rfl, g.le_refl, hs, Pool.Advance.refl _, h⟩

/-- **The second computation goes on where the first one ended**, over a larger graph and with a
    larger pool. -/
protected theorem bind {f : α → GraphM Sharing β} {last : Graph → Pool → β → Prop}
    (h : Shares tidy below g s act post)
    (hf : ∀ g' s' a, g ≤ g' → s.table.pool ≤ s'.table.pool → post g' s'.table.pool a →
      Shares tidy below g' s' (f a) last) : Shares tidy below g s (act >>= f) last := by
  intro hs
  obtain ⟨a, s', g', run, le, hs', adv, hp⟩ := h hs
  obtain ⟨b, s'', g'', run', le', hs'', adv', hq⟩ := hf g' s' a le adv.kept hp hs'
  refine ⟨b, s'', g'', ?_, g.le_trans le le', hs'', adv.trans adv', hq⟩
  rw [GraphM.bind_run_of_ok run, run']

/-- A computation that gave a result let pool and trail go on. -/
theorem of_ok (h : Shares tidy below g s act post) (hs : Sharing.At tidy g s) {a : α}
    {s' : Arena Sharing} (run : act s = .ok a s') :
    ∃ g', g ≤ g' ∧ Sharing.At tidy g' s' ∧ s.table.pool.Advance tidy below s'.table.pool ∧
      post g' s'.table.pool a := by
  obtain ⟨_, _, g', run', le, hs', advance, hp⟩ := h hs
  obtain ⟨rfl, rfl⟩ := EStateM.Result.ok.inj (run.symm.trans run')
  exact ⟨g', le, hs', advance, hp⟩

/-- What is known at the start may be used. -/
theorem of_at (h : Sharing.At tidy g s → Shares tidy below g s act post) :
    Shares tidy below g s act post :=
  fun hs => h hs hs

/-- A computation that grows the graph and leaves every table as it is. -/
theorem of_grows {post : Graph → α → Prop} (h : ∀ x, Grows False (.fixed x) g act post) :
    Shares tidy below g s act fun g' _ a => post g' a := by
  intro hs
  obtain ⟨a, s', g', run, le, ⟨next, same⟩, hp⟩ := (h s.table).result ⟨hs.next, rfl⟩
  have same : s'.table = s.table := same
  refine ⟨a, s', g', run, le, ⟨next, ?_, ?_⟩, ?_, hp⟩
  · rw [same]
    exact Sharing.upkeep.mono le hs.covered
  · rw [same]
    exact hs.tidy
  · rw [same]
    exact Pool.Advance.refl _

theorem emit (e : Event) : Shares tidy below g s (GraphM.emit e) fun _ _ _ => True :=
  of_grows fun _ => Grows.emit e

/-! ## 2. One node -/

/-- What becomes of a node stands for it, and it is settled in a tidy pool. -/
structure Result (tidy : Prop) (n : Node) (g : Graph) (p : Pool) (c : Node) : Prop where
  standsFor : g.StandsFor n c
  settled : tidy → p.Settled c

theorem noteStep {n c : Node} (hn : n ∈ g) (hc : g.StandsFor n c)
    (into : tidy → c ∈ s.table.pool.nodes) :
    Shares tidy below g s (StackGraph.noteStep n c) fun _ p _ => s.table.pool ≤ p := by
  intro hs
  refine ⟨(), _, g, rfl, g.le_refl,
    ⟨hs.next, ⟨hs.covered.1, hs.covered.2.insert hn hc⟩, fun ht => ?_⟩, Pool.Advance.refl _,
    Pool.le_refl _⟩
  exact ⟨(hs.tidy ht).pool, (hs.tidy ht).trail.insert (into ht)⟩

/-- A run of `intern` puts the pool in the place of the old one and may report. -/
theorem intern_run (n : Node) (s : Arena Sharing) :
    ∃ journal, StackGraph.intern n s =
      .ok (s.table.pool.intern n).1
        ⟨s.next, journal, { s.table with pool := (s.table.pool.intern n).2 }⟩ := by
  unfold StackGraph.intern
  by_cases grown : (s.table.pool.intern n).2.size ≠ s.table.pool.size
  · refine ⟨s.journal.push (.pooled (s.table.pool.intern n).1.key), ?_⟩
    simp [bind, EStateM.bind, grown, pure, EStateM.pure]
  · refine ⟨s.journal, ?_⟩
    simp [bind, EStateM.bind, grown, pure, EStateM.pure]

/-- A node whose parents are settled is put into the pool. -/
theorem intern {n : Node} (hn : n ∈ g) (bottom : n.isBottom = false) (hb : below n.tree)
    (parents : tidy → ∀ q ∈ n.parents, s.table.pool.Settled q) :
    Shares tidy below g s (StackGraph.intern n) fun g' p c => g'.StandsFor n c ∧ c ∈ p.nodes := by
  intro hs
  obtain ⟨journal, run⟩ := intern_run n s
  obtain ⟨hc, covered⟩ := hs.covered.1.intern hn
  have le := s.table.pool.le_intern n
  refine ⟨_, _, g, run, g.le_refl, ⟨hs.next, ⟨covered, hs.covered.2⟩, fun ht => ?_⟩,
    ⟨le, fun m hm => ?_, fun ht m hm => ?_⟩, hc, Pool.mem_intern bottom⟩
  · exact ⟨(hs.tidy ht).pool.intern hs.covered.1 hn, (hs.tidy ht).trail.mono le⟩
  · rcases Pool.mem_or_eq_of_mem_intern hm with hm | rfl
    · exact .inl hm
    · exact .inr hb
  · rcases Pool.mem_or_eq_of_mem_intern hm with hm | rfl
    · exact .inl hm
    · exact .inr fun q hq => (parents ht q hq).mono le

/-- What trail or pool know stands for the node, and is in a tidy pool. -/
theorem recallOr {n : Node} (hn : n ∈ g) {otherwise : GraphM Sharing Node}
    (h : n.tree ∉ s.table.pool.trees → Shares tidy below g s otherwise (Result tidy n)) :
    Shares tidy below g s (StackGraph.recallOr n otherwise) (Result tidy n) := by
  refine of_at fun hs => ?_
  have known : ∀ act, (StackGraph.recallOr n otherwise) s = act s →
      Shares tidy below g s act (Result tidy n) →
      Shares tidy below g s (StackGraph.recallOr n otherwise) (Result tidy n) := by
    intro act e h hs
    rw [e]
    exact h hs
  cases seen : s.table.trail.find? n with
  | some c =>
    refine known (pure c) ?_ (.pure ⟨hs.covered.2.find? hn seen, fun ht => ?_⟩)
    · simp [StackGraph.recallOr, bind, EStateM.bind, seen]
    · exact .inr ((hs.tidy ht).trail.find? seen)
  | none =>
    cases found : s.table.pool.find? n with
    | some c =>
      have hc := hs.covered.1.find? hn found
      have mem := Pool.mem_of_find?_eq_some found
      refine known (do StackGraph.noteStep n c; return c) ?_ ?_
      · simp [StackGraph.recallOr, bind, EStateM.bind, seen, found]
      · refine (noteStep hn hc fun _ => mem).bind fun g₁ s₁ _ le le' _ => .pure ?_
        exact ⟨hc.mono le, fun _ => .inr (le' c mem)⟩
    | none =>
      refine known otherwise ?_ (h (hs.covered.1.tree_notMem hn found))
      simp [StackGraph.recallOr, bind, EStateM.bind, seen, found]

/-- A node over what became of its parents is settled, as it is or rebuilt. -/
theorem settle {n : Node} {slots : List (Slot Node)} (hn : n ∈ g) (bottom : n.isBottom = false)
    (hb : below n.tree) (hs : g.Within slots) (trees : slots.map (Slot.map tree) = n.tree.slots)
    (settled : tidy → ∀ q ∈ Slot.parents slots, s.table.pool.Settled q) :
    Shares tidy below g s (StackGraph.settle n slots) (Result tidy n) := by
  unfold StackGraph.settle
  by_cases same : slots.map (Slot.map Node.id) = n.slots.map (Slot.map Node.id)
  · rw [if_pos same]
    have e : slots = n.slots := hs.eq_of_ids (Graph.within_slots hn) same
    rw [e] at settled
    refine (intern hn bottom hb settled).bind fun g₁ s₁ c le _ ⟨hc, mem⟩ => ?_
    refine (noteStep (le n hn) hc fun _ => mem).bind fun g₂ s₂ _ le' le₂ _ => .pure ?_
    exact ⟨hc.mono le', fun _ => .inr (le₂ c mem)⟩
  · rw [if_neg same]
    have normal := Graph.normalSlots_of_trees hn trees
    refine (of_grows fun x => Grows.ofNormal normal hs).bind fun g₁ s₁ rebuilt le kept ⟨hr, er⟩ => ?_
    have tree_eq : rebuilt.tree = n.tree := Graph.tree_eq_of_slots hr hn (er ▸ trees)
    have bottom' : rebuilt.isBottom = false := (isBottom_eq_of_tree tree_eq).trans bottom
    have settled' : tidy → ∀ q ∈ rebuilt.parents, s₁.table.pool.Settled q := fun ht q hq => by
      rw [Node.parents, er] at hq
      exact (settled ht q hq).mono kept
    refine (intern hr bottom' (tree_eq ▸ hb) settled').bind fun g₂ s₂ c le₂ _ ⟨hc, mem⟩ => ?_
    refine (emit _).bind fun g₃ s₃ _ le₃ kept₃ _ => ?_
    have hc₃ := hc.mono le₃
    have mem₃ := kept₃ c mem
    have hr₃ := le₃ _ (le₂ _ hr)
    refine (noteStep hr₃ hc₃ fun _ => mem₃).bind fun g₄ s₄ _ le₄ kept₄ _ => ?_
    have hc₄ := (hc₃.mono le₄).of_eq tree_eq
    have hn₄ := le₄ n (le₃ n (le₂ n (le n hn)))
    have mem₄ := kept₄ c mem₃
    refine (noteStep hn₄ hc₄ fun _ => mem₄).bind fun g₅ s₅ _ le₅ kept₅ _ => .pure ?_
    exact ⟨hc₄.mono le₅, fun _ => .inr (kept₅ c mem₄)⟩

/-! ## 3. A whole ancestry -/

/-- What lies below the slots is shared, slot by slot, in a pool that goes on from the pool `p₀`. -/
theorem shareSlots {slots : List (Slot Node)} {p₀ : Pool} (hs : g.Within slots)
    (le₀ : p₀ ≤ s.table.pool)
    (ih : ∀ p ∈ Slot.parents slots, ∀ {g' : Graph} {s' : Arena Sharing}, p ∈ g' →
      p₀ ≤ s'.table.pool → Shares tidy below g' s' (StackGraph.share p) (Result tidy p)) :
    Shares tidy below g s (StackGraph.shareSlots slots) fun g' p shared =>
      g'.Within shared ∧ shared.map (Slot.map tree) = slots.map (Slot.map tree) ∧
        (tidy → ∀ q ∈ Slot.parents shared, p.Settled q) := by
  induction slots generalizing g s with
  | nil => exact .pure ⟨hs, rfl, fun _ _ h => absurd h List.not_mem_nil⟩
  | cons first rest ihs =>
    obtain ⟨x, parent⟩ := first
    cases parent with
    | none =>
      refine (ihs hs.tail le₀ ih).bind fun g₁ s₁ shared le _ ⟨hw, e, settled⟩ => .pure ?_
      refine ⟨.cons_none hw, ?_, settled⟩
      rw [List.map_cons, List.map_cons, e]
    | some p =>
      have below : p ∈ Slot.parents (⟨x, some p⟩ :: rest) :=
        Slot.mem_parents.mpr ⟨_, List.mem_cons_self, rfl⟩
      refine (ih p below (hs _ List.mem_cons_self p rfl) le₀).bind fun g₁ s₁ c le kept₁ hc => ?_
      refine (ihs (hs.tail.mono le) (Pool.le_trans le₀ kept₁)
        fun q hq => ih q (List.mem_cons_of_mem p hq)).bind
        fun g₂ s₂ shared le' kept ⟨hw, e, settled⟩ => .pure ?_
      rw [Graph.replacement_eq (le p (hs _ List.mem_cons_self p rfl)) hc.standsFor.1]
      refine ⟨.cons_some (le' c hc.standsFor.1) hw, ?_, fun ht q hq => ?_⟩
      · rw [List.map_cons, List.map_cons, e]
        simp [Slot.map, hc.standsFor.2]
      · rcases List.mem_cons.mp hq with rfl | hq
        · exact (hc.settled ht).mono kept
        · exact settled ht q hq

/-- **Sharing a node never fails.** Its result has the tree of the node and is settled in a tidy
    pool, which takes in no trees but those that are reached from the node before any that the pool
    has. -/
theorem share {n : Node} (hn : n ∈ g)
    (hb : ∀ t, n.tree.ReachesNew s.table.pool.trees t → below t) :
    Shares tidy below g s (StackGraph.share n) (Result tidy n) := by
  induction n using Node.induction generalizing g s with
  | step n ih =>
    -- what lies below a new node is shared in a pool that only knows more
    have ih : n.tree ∉ s.table.pool.trees → ∀ p ∈ n.parents,
        ∀ {g' : Graph} {s' : Arena Sharing}, p ∈ g' → s.table.pool ≤ s'.table.pool →
          Shares tidy below g' s' (StackGraph.share p) (Result tidy p) := fun new p hp _ _ hp' le =>
      ih p hp hp' fun t r =>
        hb t (.step new (mem_parents_tree.mpr ⟨p, hp, rfl⟩) (r.anti (Pool.trees_mono le)))
    cases n with
    | bottom i => exact .pure ⟨⟨hn, rfl⟩, fun _ => .inl rfl⟩
    | frame i k x p =>
      have below : p ∈ (frame i k x p).parents := List.mem_cons_self
      refine recallOr hn fun new => ?_
      refine (ih new p below (Graph.parent_mem hn below) (Pool.le_refl _)).bind
        fun g₁ s₁ c le _ hc => ?_
      rw [Graph.replacement_eq (le p (Graph.parent_mem hn below)) hc.standsFor.1]
      refine settle (le _ hn) rfl (hb _ (.refl new nofun))
        (.cons_some hc.standsFor.1 Graph.within_nil) ?_ ?_
      · exact congrArg (fun t => [(⟨x, some t⟩ : Slot Tree)]) hc.standsFor.2
      · exact fun ht q hq => List.mem_singleton.mp hq ▸ hc.settled ht
    | choice i k slots =>
      refine recallOr hn fun new => ?_
      refine (shareSlots (Graph.within_slots hn) (Pool.le_refl _) (ih new)).bind
        fun g₁ s₁ shared le _ h => ?_
      obtain ⟨hw, e, settled⟩ := h
      exact settle (le _ hn) rfl (hb _ (.refl new nofun)) hw
        (e.trans (slots_tree (.choice i k slots)).symm) settled

end Shares

/-! ## 4. Any pool and any trail -/

namespace Grows

variable {g : Graph} {n : Node}

theorem intern (hn : n ∈ g) :
    Grows False Sharing.upkeep g (StackGraph.intern n) fun g' c => g'.StandsFor n c := by
  intro s hs
  obtain ⟨journal, run⟩ := Shares.intern_run n s
  obtain ⟨hc, covered⟩ := hs.2.1.intern hn
  rw [run]
  exact ⟨g, g.le_refl, ⟨hs.1, covered, hs.2.2⟩, hc⟩

/-- **Sharing a node never fails, and its result has the tree of the node**, whatever the pool and
    the trail hold. -/
theorem share (hn : n ∈ g) :
    Grows False Sharing.upkeep g (StackGraph.share n) fun g' c => g'.StandsFor n c := by
  intro s hs
  have shares : Shares False (fun _ => True) g s (StackGraph.share n) _ :=
    Shares.share hn fun _ _ => trivial
  obtain ⟨c, s', g', run, le, hs', _, hc⟩ := shares ⟨hs.1, hs.2, False.elim⟩
  rw [run]
  exact ⟨g', le, ⟨hs'.next, hs'.covered⟩, hc.standsFor⟩

end Grows

end StackGraph
