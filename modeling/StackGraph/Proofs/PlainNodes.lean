import StackGraph.Proofs.MergeHistories
import StackGraph.Proofs.TreeHistories

/-!
# Plain nodes are known by their histories

A choice may have something below its slot of the bottom state, and this is not seen in its
histories. Where no choice has, a node is a canonical form of the set of its histories: the first
states of the histories are the states of its slots, and what they go on with are the histories of
what lies below. So equality, and with it every memo and every pool, takes two such nodes for one
exactly when they stand for the same histories.

* `Tree.Plain.eq_of_histories` -- plain trees of the same histories are one tree;
* `Tree.Plain.merge` -- the merge of plain trees is plain;
* `Node.Plain` -- nodes below which no choice has anything under the bottom state;
* `Session.beq_iff_same_histories` -- **equality of plain nodes is equality of histories**.
-/

namespace StackGraph

/-! ## 1. Plain trees -/

namespace Tree

variable {mode : Mode} {a b t : Tree}

theorem Plain.parent (h : Plain t) {p : Tree} (hp : p ∈ t.parents) : Plain p := by
  obtain ⟨s, hs, e⟩ := mem_parents.mp hp
  cases h with
  | bottom =>
    rw [List.mem_singleton.mp hs] at e
    cases e
  | frame below =>
    rw [List.mem_singleton.mp hs] at e
    cases e
    exact below
  | choice _ below => exact below s hs p e

/-- Nothing lies below the bottom state of a plain tree. -/
theorem Plain.at?_bottom (h : Plain t) (ht : Proper t) {p : Option Tree}
    (hp : Slot.at? State.bottom t.slots = some p) : p = none := by
  have hs := Slot.mem_of_at?_eq_some hp
  cases h with
  | bottom => exact congrArg Slot.parent (List.mem_singleton.mp hs)
  | frame _ =>
    cases ht with
    | frame hx _ => exact absurd (congrArg Slot.state (List.mem_singleton.mp hs)).symm hx
  | choice ends _ => exact ends _ hs rfl

theorem Proper.plain (ht : Proper t) (ends : ∀ p, Slot.at? State.bottom t.slots = some p → p = none)
    (below : ∀ p ∈ t.parents, Plain p) : Plain t := by
  cases ht with
  | bottom => exact .bottom
  | frame _ _ => exact .frame (below _ List.mem_cons_self)
  | choice proper _ =>
    refine .choice (fun s hs e => ?_) fun s hs p hp => below p (mem_parents.mpr ⟨s, hs, hp⟩)
    have found := proper.normal.ascending.at?_of_mem hs
    rw [e] at found
    exact ends s.parent found

/-- **The merge of plain trees is plain.** -/
theorem Plain.merge (pa : Plain a) (pb : Plain b) (ha : Proper a) (hb : Proper b) :
    Plain (Tree.merge mode a b) := by
  induction a using Tree.induction generalizing b with
  | step a ih =>
    by_cases sw : Swallows mode a b
    · rw [merge_of_swallows sw]
      exact .bottom
    · refine (ha.merge hb).plain (fun p hp => ?_) fun t ht => ?_
      · rw [ha.at?_merge hb sw] at hp
        rcases Option.merge_eq_some_iff.mp hp with ⟨hp, _⟩ | ⟨_, hp⟩ | ⟨q, q', hq, hq', rfl⟩
        · exact pa.at?_bottom ha hp
        · exact pb.at?_bottom hb hp
        · rw [pa.at?_bottom ha hq, pb.at?_bottom hb hq']
          rfl
      · obtain ⟨s, hs, e⟩ := mem_parents.mp ht
        have h := (ha.merge hb).normal.ascending.at?_of_mem hs
        rw [e, ha.slots_merge hb sw] at h
        rcases at?_mergeSlots_cases ha.normal.ascending hb.normal.ascending h with
          h | h | ⟨p, q, hp, hq, rfl⟩
        · exact pa.parent (mem_parents_of_at? h)
        · exact pb.parent (mem_parents_of_at? h)
        · have hp' := mem_parents_of_at? hp
          have hq' := mem_parents_of_at? hq
          exact ih p hp' (pa.parent hp') (pb.parent hq') (ha.parent hp') (hb.parent hq')

/-! ## 2. Histories determine a plain tree -/

/-- Every proper tree stands for some history. -/
theorem Proper.exists_history (ht : Proper t) : ∃ h, h ∈ t.histories := by
  induction t using Tree.induction with
  | step t ih =>
    obtain ⟨⟨x, parent⟩, rest, e⟩ := List.exists_cons_of_ne_nil ht.normal.ne_nil
    have hs : ⟨x, parent⟩ ∈ t.slots := by
      rw [e]
      exact List.mem_cons_self
    by_cases hx : x = State.bottom
    · exact ⟨[], ht.nil_mem_histories.mpr (Slot.mem_states.mpr ⟨_, hs, hx⟩)⟩
    · cases parent with
      | none => exact absurd ⟨rfl, hx⟩ (ht.normal.no_orphan _ hs)
      | some p =>
        have hp : p ∈ t.parents := mem_parents.mpr ⟨_, hs, rfl⟩
        obtain ⟨h, hh⟩ := ih p hp (ht.parent hp)
        exact ⟨x :: h, ht.cons_mem_histories.mpr
          ⟨hx, p, ht.normal.ascending.at?_of_mem hs, hh⟩⟩

/-- The histories below a state are those that go on with the state. -/
theorem Proper.mem_histories_below (ht : Proper t) {x : State} (hx : x ≠ State.bottom) {p : Tree}
    (hp : Slot.at? x t.slots = some (some p)) {h : History} :
    h ∈ p.histories ↔ x :: h ∈ t.histories := by
  rw [ht.cons_mem_histories]
  constructor
  · exact fun hh => ⟨hx, p, hp, hh⟩
  · rintro ⟨_, p', hp', hh⟩
    rw [hp] at hp'
    rwa [Option.some.inj (Option.some.inj hp')]

/-- A tree has something at the states its histories begin with. -/
theorem Proper.mem_states_iff (ht : Proper t) {x : State} (hx : x ≠ State.bottom) :
    x ∈ Slot.states t.slots ↔ ∃ h, x :: h ∈ t.histories := by
  constructor
  · intro mem
    obtain ⟨s, hs, rfl⟩ := Slot.mem_states.mp mem
    have found := ht.normal.ascending.at?_of_mem hs
    cases e : s.parent with
    | none => exact absurd ⟨e, hx⟩ (ht.normal.no_orphan s hs)
    | some p =>
      rw [e] at found
      obtain ⟨h, hh⟩ := (ht.parent (mem_parents_of_at? found)).exists_history
      exact ⟨h, (ht.mem_histories_below hx found).mp hh⟩
  · rintro ⟨h, hh⟩
    obtain ⟨_, p, hp, _⟩ := ht.cons_mem_histories.mp hh
    exact Slot.mem_states.mpr ⟨_, Slot.mem_of_at?_eq_some hp, rfl⟩

/-- **Plain trees of the same histories are one tree.** -/
theorem Plain.eq_of_histories (pa : Plain a) (pb : Plain b) (ha : Proper a) (hb : Proper b)
    (same : ∀ h, h ∈ a.histories ↔ h ∈ b.histories) : a = b := by
  induction a using Tree.induction generalizing b with
  | step a ih =>
    have states (x : State) : x ∈ Slot.states a.slots ↔ x ∈ Slot.states b.slots := by
      by_cases hx : x = State.bottom
      · rw [hx, ← ha.nil_mem_histories, ← hb.nil_mem_histories, same]
      · rw [ha.mem_states_iff hx, hb.mem_states_iff hx]
        exact exists_congr fun h => same (x :: h)
    refine ha.ext hb fun x => ?_
    cases ea : Slot.at? x a.slots with
    | none =>
      have absent := Slot.at?_eq_none_iff.mp ea
      rw [states] at absent
      exact (Slot.at?_eq_none_iff.mpr absent).symm
    | some o =>
      obtain ⟨s, hs, rfl⟩ := Slot.mem_states.mp
        ((states x).mp (Slot.mem_states.mpr ⟨_, Slot.mem_of_at?_eq_some ea, rfl⟩))
      have eb := hb.normal.ascending.at?_of_mem hs
      rw [eb]
      by_cases hx : s.state = State.bottom
      · rw [hx] at ea eb
        rw [pa.at?_bottom ha ea, pb.at?_bottom hb eb]
      · cases o with
        | none => exact absurd (ha.normal.eq_bottom_of_at? ea) hx
        | some p =>
          cases e : s.parent with
          | none => exact absurd ⟨e, hx⟩ (hb.normal.no_orphan s hs)
          | some q =>
            rw [e] at eb
            have hp := mem_parents_of_at? ea
            have hq := mem_parents_of_at? eb
            have below (h : History) : h ∈ p.histories ↔ h ∈ q.histories := by
              rw [ha.mem_histories_below hx ea, hb.mem_histories_below hx eb, same]
            rw [ih p hp (pa.parent hp) (pb.parent hq) (ha.parent hp) (hb.parent hq) below]

end Tree

/-- Merges of plain trees, in any grouping, give a plain tree. -/
theorem Grouping.plain_tree {mode : Mode} {p : Grouping Node}
    (h : ∀ n ∈ p.members, n.tree.Proper) (plain : ∀ n ∈ p.members, n.tree.Plain) :
    (p.tree mode).Plain := by
  induction p with
  | single n => exact plain n List.mem_cons_self
  | both left right ihl ihr =>
    obtain ⟨hl, hr⟩ := forall_members_both.mp h
    obtain ⟨pl, pr⟩ := forall_members_both.mp plain
    exact (ihl hl pl).merge (ihr hr pr) (proper_tree hl) (proper_tree hr)

/-! ## 3. Plain nodes -/

namespace Node

/-- In every choice that can be reached, nothing lies below the slot of the bottom state, and below
    no other slot is nothing. -/
def Plain (n : Node) : Prop :=
  ∀ m, Reaches n m → m.kind = .choice → ∀ s ∈ m.slots, s.parent = none ↔ s.state = State.bottom

/-- Both nodes stand for the same call histories. -/
def SameHistories (a b : Node) : Prop := ∀ h, h ∈ a.histories ↔ h ∈ b.histories

/-- A node is plain when its own slots are as they should be and what lies below is plain. -/
theorem plain_of_parents {n : Node}
    (top : n.kind = .choice → ∀ s ∈ n.slots, s.parent = none ↔ s.state = State.bottom)
    (below : ∀ p ∈ n.parents, p.Plain) : n.Plain := by
  intro m r
  cases r with
  | refl => exact top
  | step hp r => exact below _ hp m r

theorem IsChain.plain {n : Node} (h : n.IsChain) : n.Plain :=
  fun m r choice => absurd choice (h m r)

/-- Whether a node is plain is a fact about its tree. -/
theorem plain_iff {n : Node} (h : n.tree.Proper) : n.Plain ↔ n.tree.Plain := by
  constructor
  · intro plain
    induction n using Node.induction with
    | step n ih =>
      have below : ∀ t ∈ n.tree.parents, t.Plain := fun t ht => by
        obtain ⟨p, hp, rfl⟩ := mem_parents_tree.mp ht
        exact ih p hp (h.parent ht) fun m r => plain m (.step hp r)
      cases n with
      | bottom i => exact .bottom
      | frame i k x p => exact .frame (below _ List.mem_cons_self)
      | choice i k slots =>
        refine .choice (fun t ht e => ?_) fun t ht p hp =>
          below p (Tree.mem_parents.mpr ⟨t, ht, hp⟩)
        rw [treeSlots_eq_map] at ht
        obtain ⟨s, hs, rfl⟩ := List.mem_map.mp ht
        rw [Slot.parent_map, (plain _ (.refl _) rfl s hs).mpr e]
        rfl
  · intro plain m r _ s hs
    induction r with
    | refl n =>
      have ht : s.map tree ∈ n.tree.slots := by
        rw [slots_tree]
        exact List.mem_map_of_mem hs
      constructor
      · intro none
        by_contra hx
        exact h.normal.no_orphan _ ht ((Slot.isOrphan_map tree s).mpr ⟨none, hx⟩)
      · intro hx
        have found := h.normal.ascending.at?_of_mem ht
        rw [Slot.state_map, hx] at found
        exact Option.map_eq_none_iff.mp (plain.at?_bottom h found)
    | step hp _ ih =>
      have hp' := mem_parents_tree.mpr ⟨_, hp, rfl⟩
      exact ih (h.parent hp') (plain.parent hp') ‹_› hs

end Node

/-! ## 4. Plain nodes in a session -/

namespace Session

variable {a b : Node}

/-- **Plain nodes of a session are equal when they stand for the same call histories.** Then their
    keys agree; whatever a memo or a pool answers for the one, it answers for the other; and what was
    stored for the one is found for the other. All that is merged from plain nodes is plain. -/
theorem beq_iff_same_histories (commands : List (Command × Option String))
    (ha : (replay commands).Holds a) (hb : (replay commands).Holds b) (pa : a.Plain)
    (pb : b.Plain) :
    ((a == b) = true ↔ a.SameHistories b) ∧
    (a.SameHistories b →
      a.key = b.key ∧
      (∀ t c, (replay commands).HoldsMemo t → (replay commands).Holds c →
        Memo.find? t a c = Memo.find? t b c ∧ Memo.find? t c a = Memo.find? t c b ∧
        ∀ m, (replay commands).Holds m →
          Memo.find? (Memo.store t a c m) b c = some m ∧
          Memo.find? (Memo.store t c a m) c b = some m) ∧
      ∀ p, (replay commands).HoldsPool p →
        p.find? a = p.find? b ∧ (p.intern a).2.intern b = p.intern a) ∧
    ∀ (mode : Mode) (p : Grouping Node),
      (∀ n ∈ p.members, (replay commands).Holds n ∧ n.Plain) →
      (replay commands).Yields (SessionM.plain (p.merge mode)) Node.Plain := by
  obtain ⟨g, hs⟩ := over_replay commands
  have ha := hs.mem ha
  have hb := hs.mem hb
  have ta := Graph.proper_tree ha
  have tb := Graph.proper_tree hb
  have trees : a.SameHistories b ↔ a.tree = b.tree := by
    constructor
    · exact fun same =>
        ((Node.plain_iff ta).mp pa).eq_of_histories ((Node.plain_iff tb).mp pb) ta tb same
    · intro e h
      unfold Node.histories
      rw [e]
  refine ⟨(Graph.beq_iff ha hb).trans trees.symm, fun same => ?_, fun mode p hp => ?_⟩
  · have e := trees.mp same
    refine ⟨Graph.key_eq_of_beq ha hb ((Graph.beq_iff ha hb).mpr e), fun t c ht hc => ?_,
      fun p hp => ?_⟩
    · have ht := hs.memo ht
      have hc := hs.mem hc
      refine ⟨ht.find?_congr ha hc hb hc e rfl, ht.find?_congr hc ha hc hb rfl e, fun m hm => ?_⟩
      have hm := hs.mem hm
      exact ⟨ht.find?_store ha hc hb hc hm e rfl, ht.find?_store hc ha hc hb hm rfl e⟩
    · have hp := hs.pool hp
      exact ⟨hp.find?_congr ha hb e, hp.intern_intern ha hb e⟩
  · have mem : ∀ n ∈ p.members, n ∈ g := fun n hn => hs.mem (hp n hn).1
    have proper : ∀ n ∈ p.members, n.tree.Proper := fun n hn => Graph.proper_tree (mem n hn)
    refine hs.yields hs.2 ((Grows.groupingPlain mem).weaken ?_)
    intro g' r _ h
    obtain ⟨hr, er⟩ := h
    rw [Node.plain_iff (Graph.proper_tree hr), er]
    exact Grouping.plain_tree proper fun n hn => (Node.plain_iff (proper n hn)).mp (hp n hn).2

/-- A session in which a merge is made a second time from its slots. -/
def rebuilt : List (Command × Option String) :=
  sample ++ [(.push "$" 2, some "low"),
    (.ofLists [3, State.bottom] [some "low", none], some "same as b"), (.newMemo, some "memo")]

/-- The two are equal, and all that is merged from them and a chain is plain. -/
theorem beq_iff_same_histories_rebuilt :
    ∃ a b c t p, (replay rebuilt).Holds a ∧ (replay rebuilt).Holds b ∧ (replay rebuilt).Holds c ∧
      (replay rebuilt).HoldsMemo t ∧ (replay rebuilt).HoldsPool p ∧ a.Plain ∧ b.Plain ∧
      a.SameHistories b ∧ a.same b = false ∧ (a == b) = true ∧
      Memo.find? (Memo.store t a c a) b c = some a ∧ (p.intern a).2.intern b = p.intern a ∧
      (replay rebuilt).Yields
        (SessionM.plain ((Grouping.both (.single a) (.both (.single c) (.single b))).merge .exact))
        Node.Plain := by
  have plain (i j : Nat) (k l : Key) : (Node.choice i k
      [⟨3, some (.frame j l 2 (.bottom 0))⟩, ⟨State.bottom, none⟩]).Plain := by
    have ends : (3 : State) ≠ State.bottom := by decide
    refine Node.plain_of_parents (fun _ => ?_) ?_
    · exact List.forall_mem_cons.mpr ⟨⟨nofun, fun e => absurd e ends⟩,
        List.forall_mem_singleton.mpr ⟨fun _ => rfl, fun _ => rfl⟩⟩
    · exact List.forall_mem_singleton.mpr ((Node.isChain_bottom 0).frame j l 2).plain
  have pa := plain 5 1 (Key.choice [⟨3, some (Key.frame 2 Key.bottom)⟩, ⟨State.bottom, none⟩])
    (Key.frame 2 Key.bottom)
  have pb := plain 9 8 (Key.choice [⟨3, some (Key.frame 2 Key.bottom)⟩, ⟨State.bottom, none⟩])
    (Key.frame 2 Key.bottom)
  have pc := ((Node.isChain_bottom 6).frame 7 (Key.frame 5 Key.bottom) 5).plain
  refine ⟨_, _, _, _, _, ⟨"b", rfl⟩, ⟨"same as b", rfl⟩, ⟨"c", rfl⟩, ⟨"memo", rfl⟩, ⟨"pool", rfl⟩, pa,
    pb, fun _ => Iff.rfl, rfl, ?_⟩
  obtain ⟨equal, known, merged⟩ :=
    beq_iff_same_histories rebuilt ⟨"b", rfl⟩ ⟨"same as b", rfl⟩ pa pb
  obtain ⟨_, memos, pools⟩ := known fun _ => Iff.rfl
  refine ⟨equal.mpr fun _ => Iff.rfl,
    ((memos _ _ ⟨"memo", rfl⟩ ⟨"c", rfl⟩).2.2 _ ⟨"b", rfl⟩).1, (pools _ ⟨"pool", rfl⟩).2,
    merged .exact _ (Grouping.forall_members_both.mpr
      ⟨?_, Grouping.forall_members_both.mpr ⟨?_, ?_⟩⟩)⟩
  · exact List.forall_mem_singleton.mpr ⟨⟨"b", rfl⟩, pa⟩
  · exact List.forall_mem_singleton.mpr ⟨⟨"c", rfl⟩, pc⟩
  · exact List.forall_mem_singleton.mpr ⟨⟨"same as b", rfl⟩, pb⟩

end Session

end StackGraph
