import StackGraph.Proofs.CheckedSharing
import StackGraph.Proofs.StoredOnce

/-!
# Sharing puts each expanded node in once

To share a node for which neither the trail nor the pool answers is to expand it: what lies below it
is shared first, and then it is put into the pool, as it is or rebuilt. Meanwhile the pool took in
nodes from below only, and these are smaller trees. So the pool still does not know the node, and it
takes in this very node. Where the trail leads into the pool, all that lies below it is there before.

* `Expansion`, `expansions` -- the nodes that are expanded, in the order in which this ends;
* `Pool.Admits`, `Pool.TakesNew` -- nodes that are put into a pool, each of them new to it;
* `Inserts` -- what a computation puts into the pool for the nodes that it expands, and what it
  reports;
* `settle_inserts` -- one node;
* `share_inserts` -- **every expanded node is put in once**, by induction on the node;
* `Inserts.size_eq`, `Inserts.rebuiltWhenPooled` -- what is reported meanwhile.
-/

namespace StackGraph

open Node

/-! ## 1. Expanded nodes -/

/-- A node that is expanded, and its slots over what became of the nodes below. -/
structure Expansion where
  node : Node
  slots : List (Slot Node)

/-- Whether a node is shared without being expanded: it is a bottom, or trail or pool know it. -/
def Sharing.answers (x : Sharing) (n : Node) : Bool :=
  n.isBottom || (x.trail.find? n).isSome || (x.pool.find? n).isSome

/-- The slots after what lies below them was shared. -/
def slotsShared (slots : List (Slot Node)) (s : Arena Sharing) : List (Slot Node) :=
  match shareSlots slots s with
  | .ok shared _ => shared
  | .error _ _ => slots

mutual

/-- The nodes that are expanded when a node is shared, those below before those above. -/
def expansions : Node → Arena Sharing → List Expansion
  | .bottom _, _ => []
  | .frame i k x p, s =>
    if s.table.answers (.frame i k x p) then []
    else expansions p s ++ [⟨.frame i k x p, slotsShared [⟨x, some p⟩] s⟩]
  | .choice i k slots, s =>
    if s.table.answers (.choice i k slots) then []
    else expansionsBelow slots s ++ [⟨.choice i k slots, slotsShared slots s⟩]

/-- The nodes that are expanded when what lies below the slots is shared, from the first slot on. -/
def expansionsBelow : List (Slot Node) → Arena Sharing → List Expansion
  | [], _ => []
  | ⟨_, none⟩ :: rest, s => expansionsBelow rest s
  | ⟨_, some p⟩ :: rest, s =>
    expansions p s ++ expansionsBelow rest (GraphM.last (share p) s)

end

/-- **A node is expanded after what lies below it**, unless there is an answer for it. -/
theorem expansions_eq (n : Node) (s : Arena Sharing) :
    expansions n s =
      if s.table.answers n then [] else expansionsBelow n.slots s ++ [⟨n, slotsShared n.slots s⟩] := by
  cases n with
  | bottom i => exact (if_pos rfl).symm
  | frame i k x p => simp only [expansions, slots_frame, expansionsBelow, List.append_nil]
  | choice i k slots => simp only [expansions, slots_choice]

namespace Expansion

/-- Every slot leads to the same node as before. -/
def Kept (e : Expansion) : Prop := e.slots.map (Slot.map Node.id) = e.node.slots.map (Slot.map Node.id)

instance (e : Expansion) : Decidable e.Kept := inferInstanceAs (Decidable (_ = _))

/-- What is put in for an expanded node: the node itself, if every slot leads to the same node as
    before. Else it is a new node of its structure over the new slots, with an identity of `next` or
    later. -/
def Becomes (next : Nat) (e : Expansion) (m : Node) : Prop :=
  if e.Kept then m = e.node else m.slots = e.slots ∧ m.tree = e.node.tree ∧ next ≤ m.id

/-- What is reported when `m` is put in for an expanded node. -/
def events (e : Expansion) (m : Node) : List Event :=
  if e.Kept then [.pooled m.key] else [.pooled m.key, .rebuilt m.key]

theorem Becomes.mono {e : Expansion} {m : Node} {next next' : Nat} (h : e.Becomes next' m)
    (le : next ≤ next') : e.Becomes next m := by
  unfold Becomes at h ⊢
  split
  · rwa [if_pos ‹_›] at h
  · rw [if_neg ‹_›] at h
    exact ⟨h.1, h.2.1, Nat.le_trans le h.2.2⟩

end Expansion

/-! ## 2. Nodes that are new to a pool -/

namespace Pool

variable {tidy : Prop} {p : Pool} {m n : Node} {new new' : List Node}

/-- The pool with more nodes behind its own. -/
def followedBy (p : Pool) (new : List Node) : Pool := ⟨p.nodes ++ new⟩

theorem followedBy_followedBy (p : Pool) (new new' : List Node) :
    (p.followedBy new).followedBy new' = p.followedBy (new ++ new') :=
  congrArg Pool.mk (List.append_assoc _ _ _)

theorem le_followedBy (p : Pool) (new : List Node) : p ≤ p.followedBy new :=
  fun _ hn => List.mem_append_left new hn

/-- The node is new to the pool, which has what lies below it if it is tidy. -/
structure Admits (tidy : Prop) (p : Pool) (m : Node) : Prop where
  no_bottom : m.isBottom = false
  unknown : p.find? m = none
  settled : tidy → ∀ q ∈ m.parents, p.Settled q

/-- The nodes are put into the pool in turn, and each of them is new to it. -/
def TakesNew (tidy : Prop) (p : Pool) : List Node → Prop
  | [] => True
  | m :: rest => p.Admits tidy m ∧ TakesNew tidy (p.followedBy [m]) rest

theorem takesNew_append :
    p.TakesNew tidy (new ++ new') ↔ p.TakesNew tidy new ∧ (p.followedBy new).TakesNew tidy new' := by
  induction new generalizing p with
  | nil => simp [TakesNew, followedBy]
  | cons m new ih =>
    simp only [List.cons_append, TakesNew, ih, and_assoc, followedBy_followedBy, List.nil_append]

namespace TakesNew

/-- Each of the nodes is new to the pool with those before it. -/
theorem admits {later : List Node} (h : p.TakesNew tidy (new ++ m :: later)) :
    (p.followedBy new).Admits tidy m := (takesNew_append.mp h).2.1

/-- **No two of the nodes are equal.** -/
theorem pairwise_ne (h : p.TakesNew tidy new) : new.Pairwise fun m m' => (m == m') = false := by
  induction new generalizing p with
  | nil => exact .nil
  | cons m new ih =>
    refine List.pairwise_cons.mpr ⟨fun m' hm' => ?_, ih h.2⟩
    obtain ⟨before, later, rfl⟩ := List.append_of_mem hm'
    have unknown := (admits h.2).unknown
    have mem : m ∈ ((p.followedBy [m]).followedBy before).nodes :=
      le_followedBy _ _ m (List.mem_append_right _ List.mem_cons_self)
    exact Bool.eq_false_iff.mpr (List.find?_eq_none.mp unknown m mem)

end TakesNew

end Pool

/-! ## 3. What a run puts in -/

/-- From one arena to the next, the nodes of the list were put into the pool for the nodes that were
    expanded, each when it was new. Nothing else was put in or reported. -/
structure Inserts (tidy : Prop) (s s' : Arena Sharing) (es : List Expansion) (new : List Node) :
    Prop where
  next_le : s.next ≤ s'.next
  pool_eq : s'.table.pool = s.table.pool.followedBy new
  journal_eq : s'.journal.toList =
    s.journal.toList ++ (List.zipWith Expansion.events es new).flatten
  becomes : List.Forall₂ (Expansion.Becomes s.next) es new
  takes : s.table.pool.TakesNew tidy new

namespace Inserts

variable {tidy : Prop} {s s₁ s' : Arena Sharing} {es es' : List Expansion} {new new' : List Node}

/-- Nothing is expanded, put in or reported. -/
theorem nothing (next : s'.next = s.next) (pool : s'.table.pool = s.table.pool)
    (journal : s'.journal = s.journal) : Inserts tidy s s' [] [] where
  next_le := Nat.le_of_eq next.symm
  pool_eq := pool.trans (congrArg Pool.mk (List.append_nil _).symm)
  journal_eq := (congrArg Array.toList journal).trans (List.append_nil _).symm
  becomes := .nil
  takes := trivial

theorem trans (h : Inserts tidy s s₁ es new) (h' : Inserts tidy s₁ s' es' new') :
    Inserts tidy s s' (es ++ es') (new ++ new') where
  next_le := Nat.le_trans h.next_le h'.next_le
  pool_eq := by rw [h'.pool_eq, h.pool_eq, Pool.followedBy_followedBy]
  journal_eq := by
    rw [h'.journal_eq, h.journal_eq, List.append_assoc, ← List.flatten_append,
      List.zipWith_append h.becomes.length_eq]
  becomes := List.rel_append h.becomes (h'.becomes.imp fun _ _ b => b.mono h.next_le)
  takes := Pool.takesNew_append.mpr ⟨h.takes, h.pool_eq ▸ h'.takes⟩

end Inserts

/-! ## 4. One node -/

section OneNode

variable {tidy : Prop} {g : Graph} {s s' : Arena Sharing} {n c : Node} {slots : List (Slot Node)}

/-- A node that is new to the pool comes behind the others, and this is reported. -/
theorem intern_run_of_unknown (bottom : n.isBottom = false) (unknown : s.table.pool.find? n = none) :
    intern n s = .ok n ⟨s.next, s.journal.push (.pooled n.key),
      { s.table with pool := s.table.pool.followedBy [n] }⟩ := by
  have grown : (s.table.pool.followedBy [n]).size ≠ s.table.pool.size := by
    simp [Pool.followedBy, Pool.size]
  have put : s.table.pool.intern n = (n, s.table.pool.followedBy [n]) :=
    Pool.intern_of_find?_eq_none bottom unknown
  unfold intern
  simp [bind, EStateM.bind, put, grown]

/-- The node of a normal list of slots takes the next identity, unless it is the common bottom. -/
theorem ofSlots_run_of_normal {τ : Type} (h : NormalSlots slots) (s : Arena τ) :
    ∃ m s', Node.ofSlots slots s = .ok m s' ∧
      (m.isBottom = false → s' = { s with next := s.next + 1 } ∧ s.next ≤ m.id) := by
  have fault := fault?_eq_none_iff.mpr ⟨h.ne_nil, h.ascending, h.no_orphan⟩
  rcases h.kinds with rfl | ⟨x, p, hx, rfl⟩ | proper
  · refine ⟨Node.empty, s, ?_, nofun⟩
    unfold Node.ofSlots
    rw [fault]
    exact congrFun Node.ofSlot_bottom s
  · refine ⟨.frame s.next (Key.frame x p.key) x p, _, ?_, fun _ => ⟨rfl, Nat.le_refl s.next⟩⟩
    unfold Node.ofSlots
    rw [fault]
    exact Node.push_run hx p s
  · exact ⟨_, _, Node.ofSlots_run_of_two_le fault proper.1 s, fun _ => ⟨rfl, Nat.le_refl s.next⟩⟩

/-- **A node over what became of the nodes below is put in as it is or rebuilt**, if the pool does not
    have its tree. -/
theorem settle_inserts (hs : Sharing.At tidy g s) (hn : n ∈ g) (bottom : n.isBottom = false)
    (within : g.Within slots) (trees : slots.map (Slot.map tree) = n.tree.slots)
    (settled : tidy → ∀ q ∈ Slot.parents slots, s.table.pool.Settled q)
    (new : n.tree ∉ s.table.pool.trees) (run : settle n slots s = .ok c s') :
    Inserts tidy s s' [⟨n, slots⟩] [c] := by
  by_cases kept : slots.map (Slot.map Node.id) = n.slots.map (Slot.map Node.id)
  · have same : slots = n.slots := within.eq_of_ids (Graph.within_slots hn) kept
    have unknown := (hs.covered.1.find?_eq_none_iff hn).mpr new
    unfold settle at run
    rw [if_pos kept, GraphM.bind_run_of_ok (intern_run_of_unknown bottom unknown)] at run
    obtain ⟨rfl, rfl⟩ := EStateM.Result.ok.inj run
    have kept : Expansion.Kept ⟨n, slots⟩ := kept
    exact {
      next_le := Nat.le_refl _
      pool_eq := rfl
      journal_eq := by simp [Expansion.events, kept]
      becomes := .cons (by simp [Expansion.Becomes, kept]) .nil
      takes := ⟨⟨bottom, unknown, fun ht q hq => settled ht q (same ▸ hq)⟩, trivial⟩ }
  · have normal := Graph.normalSlots_of_trees hn trees
    obtain ⟨m, s₁, made, fresh⟩ := ofSlots_run_of_normal normal s
    have grows : Grows False Sharing.upkeep g (Node.ofSlots slots) _ := Grows.ofNormal normal within
    obtain ⟨g₁, le, hs₁, hm, em⟩ := grows.of_ok ⟨hs.next, hs.covered⟩ made
    have tree_eq : m.tree = n.tree := Graph.tree_eq_of_slots hm hn (em ▸ trees)
    have bottom' : m.isBottom = false := (isBottom_eq_of_tree tree_eq).trans bottom
    obtain ⟨rfl, later⟩ := fresh bottom'
    have unknown := (hs₁.2.1.find?_eq_none_iff hm).mpr (tree_eq ▸ new)
    unfold settle at run
    rw [if_neg kept, GraphM.bind_run_of_ok made,
      GraphM.bind_run_of_ok (intern_run_of_unknown bottom' unknown)] at run
    obtain ⟨rfl, rfl⟩ := EStateM.Result.ok.inj run
    have kept : ¬ Expansion.Kept ⟨n, slots⟩ := kept
    exact {
      next_le := Nat.le_succ _
      pool_eq := rfl
      journal_eq := by simp [Expansion.events, kept]
      becomes := .cons (by simp [Expansion.Becomes, kept, em, tree_eq, later]) .nil
      takes := ⟨⟨bottom', unknown, fun ht q hq => settled ht q (em ▸ hq)⟩, trivial⟩ }

/-- What is not a bottom is answered by the trail or the pool, which costs nothing, or neither knows
    it, and then it is shared otherwise. -/
theorem recallOr_ok {otherwise : GraphM Sharing Node} (bottom : n.isBottom = false)
    (run : recallOr n otherwise s = .ok c s') :
    (s.table.answers n = true ∧ s'.next = s.next ∧ s'.table.pool = s.table.pool ∧
      s'.journal = s.journal) ∨
    (s.table.answers n = false ∧ s.table.pool.find? n = none ∧ otherwise s = .ok c s') := by
  unfold recallOr at run
  rw [GraphM.bind_run_of_ok (GraphM.table_run s)] at run
  cases seen : s.table.trail.find? n with
  | some a =>
    simp only [seen] at run
    obtain ⟨rfl, rfl⟩ := EStateM.Result.ok.inj run
    exact .inl ⟨by simp [Sharing.answers, seen], rfl, rfl, rfl⟩
  | none =>
    simp only [seen] at run
    cases found : s.table.pool.find? n with
    | some a =>
      simp only [found] at run
      obtain ⟨rfl, rfl⟩ := EStateM.Result.ok.inj run
      exact .inl ⟨by simp [Sharing.answers, found], rfl, rfl, rfl⟩
    | none =>
      simp only [found] at run
      exact .inr ⟨by simp [Sharing.answers, bottom, seen, found], rfl, run⟩

end OneNode

/-! ## 5. A whole ancestry -/

section Ancestry

variable {tidy : Prop} {g : Graph} {s s' : Arena Sharing} {n c : Node}
  {slots shared : List (Slot Node)}

/-- Below slots each expanded node is put in once, if this is so below each of them. -/
theorem shareSlots_inserts (hs : Sharing.At tidy g s) (within : g.Within slots)
    (run : shareSlots slots s = .ok shared s')
    (each : ∀ p ∈ Slot.parents slots, ∀ {g s c s'}, Sharing.At tidy g s → p ∈ g →
      share p s = .ok c s' → ∃ new, Inserts tidy s s' (expansions p s) new) :
    ∃ new, Inserts tidy s s' (expansionsBelow slots s) new := by
  induction slots generalizing g s shared with
  | nil =>
    obtain ⟨rfl, rfl⟩ := EStateM.Result.ok.inj run
    exact ⟨[], .nothing rfl rfl rfl⟩
  | cons first rest ih =>
    obtain ⟨x, parent⟩ := first
    cases parent with
    | none =>
      rw [shareSlots_cons_none rfl] at run
      obtain ⟨_, run, _⟩ := GraphM.map_ok run
      exact ih hs within.tail run each
    | some p =>
      rw [shareSlots_cons_some rfl] at run
      obtain ⟨c, s₁, first, rest⟩ := GraphM.bind_ok run
      obtain ⟨_, rest, _⟩ := GraphM.map_ok rest
      have hp : p ∈ g := within _ List.mem_cons_self p rfl
      obtain ⟨new, inserts⟩ := each p List.mem_cons_self hs hp first
      have shares : Shares tidy (fun _ => True) g s (share p) _ := Shares.share hp fun _ _ => trivial
      obtain ⟨g₁, le, hs₁, _⟩ := shares.of_ok hs first
      obtain ⟨new', inserts'⟩ := ih hs₁ (within.tail.mono le) rest fun q hq =>
        each q (List.mem_cons_of_mem p hq)
      have next : GraphM.last (share p) s = s₁ := by
        unfold GraphM.last
        rw [first]
      refine ⟨new ++ new', ?_⟩
      rw [expansionsBelow, next]
      exact inserts.trans inserts'

/-- **Every node that is expanded is put in once**, behind those below it: the node itself or the one
    that it is rebuilt to, and nothing else is put in. If the node is expanded itself then what came
    last is its result. -/
theorem share_inserts (hs : Sharing.At tidy g s) (hn : n ∈ g) (run : share n s = .ok c s') :
    ∃ new, Inserts tidy s s' (expansions n s) new ∧
      (s.table.answers n = false → new.getLast? = some c) := by
  induction n using Node.induction generalizing g s c s' with
  | step n ih =>
    rw [expansions_eq]
    cases bottom : n.isBottom with
    | true =>
      have known : s.table.answers n = true := by simp [Sharing.answers, bottom]
      have same : share n = pure n := by
        cases n with
        | bottom i => rfl
        | frame i k x p => cases bottom
        | choice i k slots => cases bottom
      rw [same] at run
      obtain ⟨rfl, rfl⟩ := EStateM.Result.ok.inj run
      rw [if_pos known]
      exact ⟨[], .nothing rfl rfl rfl, fun new => absurd known (by simp [new])⟩
    | false =>
      rw [share_eq_slots bottom] at run
      rcases recallOr_ok bottom run with ⟨known, next, pool, journal⟩ | ⟨unknown, absent, run⟩
      · rw [if_pos known]
        exact ⟨[], .nothing next pool journal, fun new => absurd known (by simp [new])⟩
      · obtain ⟨shared, s₁, below, run⟩ := GraphM.bind_ok run
        have slots_eq : slotsShared n.slots s = shared := by
          unfold slotsShared
          rw [below]
        rw [if_neg (by simp [unknown]), slots_eq]
        have within := Graph.within_slots hn
        obtain ⟨new, inserts⟩ := shareSlots_inserts hs within below fun p hp _ _ _ _ hs hp' run =>
          let ⟨new, inserts, _⟩ := ih p hp hs hp' run
          ⟨new, inserts⟩
        -- the pool took in trees from below the node only, so it does not have the one of the node
        have shares : Shares tidy (fun t => ∃ p ∈ n.parents, p.tree.Reaches t) g s
            (shareSlots n.slots) _ :=
          Shares.shareSlots within (Pool.le_refl _) fun p hp _ _ hp' _ =>
            Shares.share hp' fun t r => ⟨p, hp, r.reaches⟩
        obtain ⟨g₁, le, hs₁, advance, hw, trees, settled⟩ := shares.of_ok hs below
        have fresh : n.tree ∉ s₁.table.pool.trees := by
          rintro ⟨m, hm, e⟩
          rcases advance.new m hm with old | ⟨p, hp, r⟩
          · exact hs.covered.1.tree_notMem hn absent ⟨m, old, e⟩
          · have smaller := Tree.sizeOf_lt_of_mem_parents (mem_parents_tree.mpr ⟨p, hp, rfl⟩)
            have lower := r.sizeOf_le
            rw [e] at lower
            omega
        have last := settle_inserts hs₁ (le n hn) bottom hw (trees.trans (slots_tree n).symm)
          settled fresh run
        exact ⟨new ++ [c], inserts.trans last, fun _ => List.getLast?_concat⟩

end Ancestry

/-! ## 6. What is reported -/

/-- The key of a node that a pool took in. -/
def Event.pooledKey? : Event → Option Key
  | .pooled key => some key
  | _ => none

/-- Directly before the report that a node was rebuilt there is the one that its instance was put in. -/
def RebuiltWhenPooled (events : List Event) : Prop :=
  ∀ before key later, events = before ++ .rebuilt key :: later →
    ∃ front, before = front ++ [.pooled key]

theorem RebuiltWhenPooled.append {events events' : List Event} (h : RebuiltWhenPooled events)
    (h' : RebuiltWhenPooled events') : RebuiltWhenPooled (events ++ events') := by
  intro before key later split
  rcases List.append_eq_append_iff.mp split with ⟨rest, rfl, e⟩ | ⟨rest, rfl, e⟩
  · obtain ⟨front, rfl⟩ := h' rest key later e
    exact ⟨events ++ front, (List.append_assoc _ _ _).symm⟩
  · cases rest with
    | nil =>
      obtain ⟨front, e⟩ := h' [] key later e.symm
      simp at e
    | cons event rest =>
      obtain ⟨rfl, _⟩ := List.cons.inj e
      exact h before key rest rfl

namespace Expansion

variable {es : List Expansion} {new : List Node}

theorem pooledKeys_events (e : Expansion) (m : Node) :
    (e.events m).filterMap Event.pooledKey? = [m.key] := by
  unfold events
  split <;> rfl

theorem rebuiltWhenPooled_events (e : Expansion) (m : Node) : RebuiltWhenPooled (e.events m) := by
  intro before key later same
  unfold events at same
  split at same
  · cases before with
    | nil => simp at same
    | cons _ rest => simp at same
  · cases before with
    | nil => simp at same
    | cons first rest =>
      cases rest with
      | nil =>
        simp only [List.cons_append, List.nil_append, List.cons.injEq, Event.rebuilt.injEq] at same
        obtain ⟨rfl, rfl, _⟩ := same
        exact ⟨[], rfl⟩
      | cons _ rest => simp at same

/-- **There is one report of a new node for each node that was put in.** -/
theorem pooledKeys_eq (h : es.length = new.length) :
    (List.zipWith events es new).flatten.filterMap Event.pooledKey? = new.map Node.key := by
  induction es generalizing new with
  | nil => exact (List.length_eq_zero_iff.mp h.symm) ▸ rfl
  | cons e es ih =>
    cases new with
    | nil => cases h
    | cons m new =>
      rw [List.zipWith_cons_cons, List.flatten_cons, List.filterMap_append, pooledKeys_events,
        ih (Nat.succ.inj h)]
      rfl

/-- **What was rebuilt is reported directly after its instance.** -/
theorem rebuiltWhenPooled (es : List Expansion) (new : List Node) :
    RebuiltWhenPooled (List.zipWith events es new).flatten := by
  induction es generalizing new with
  | nil =>
    intro before key later e
    simp at e
  | cons e es ih =>
    cases new with
    | nil =>
      intro before key later e
      simp at e
    | cons m new => exact (rebuiltWhenPooled_events e m).append (ih new)

end Expansion

namespace Inserts

variable {tidy : Prop} {s s' : Arena Sharing} {es : List Expansion} {new : List Node}

/-- The journal of a run that began with an empty one. -/
theorem journal_of_empty (h : Inserts tidy s s' es new) (empty : s.journal = #[]) :
    s'.journal.toList = (List.zipWith Expansion.events es new).flatten := by
  rw [h.journal_eq, empty]
  rfl

/-- **The pool grew by as many nodes as were reported.** -/
theorem size_eq (h : Inserts tidy s s' es new) (empty : s.journal = #[]) :
    s'.table.pool.size =
      s.table.pool.size + (s'.journal.toList.filterMap Event.pooledKey?).length := by
  rw [h.journal_of_empty empty, Expansion.pooledKeys_eq h.becomes.length_eq, List.length_map,
    h.pool_eq]
  exact List.length_append

/-- **Each node that was rebuilt is reported directly after its instance was.** -/
theorem rebuiltWhenPooled (h : Inserts tidy s s' es new) (empty : s.journal = #[]) :
    RebuiltWhenPooled s'.journal.toList :=
  h.journal_of_empty empty ▸ Expansion.rebuiltWhenPooled es new

end Inserts

end StackGraph
