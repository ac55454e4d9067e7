import StackGraph.Proofs.CheckedMerging
import StackGraph.Proofs.MergeRuns
import StackGraph.Proofs.Sessions

/-!
# Equal nodes below a merge are one node

Of a union of slots, equal nodes below are made one node, the earliest of them. This is done slot by
slot with a set of the nodes kept so far, where a node is looked up by its key and its structure. A
node that only has the key of another stays beside it. So the slots of a merge that is no operand
hold one node where the union held equal ones, and different nodes where it held different ones.

* `Slot.below?` -- what lies below the slot at an index;
* `coalesceFrom`, `coalesceFrom_eq` -- **the pass with a set is `coalesce`**;
* `Coalesced`, `coalesced_coalesce` -- what the pass makes of the slots over a graph;
* `joinSlots_ok`, `merge_choice_ok` -- what a merge of a choice made, if it is no operand;
* `Session.merge_coalesces` -- **equal nodes below a merge are one node**.
-/

namespace StackGraph

open Node

/-! ## 1. Below the slot at an index -/

namespace Slot

variable {α β : Type}

/-- What lies below the slot at an index, if there is such a slot and something lies below it. -/
def below? (slots : List (Slot α)) (i : Nat) : Option α := slots[i]?.bind (·.parent)

@[simp] theorem below?_cons_zero (s : Slot α) (rest : List (Slot α)) :
    below? (s :: rest) 0 = s.parent := rfl

@[simp] theorem below?_cons_succ (s : Slot α) (rest : List (Slot α)) (i : Nat) :
    below? (s :: rest) (i + 1) = below? rest i := rfl

theorem below?_map (f : α → β) (slots : List (Slot α)) (i : Nat) :
    below? (slots.map (Slot.map f)) i = (below? slots i).map f := by
  unfold below?
  rw [List.getElem?_map]
  cases slots[i]? <;> rfl

theorem mem_parents_of_below? {slots : List (Slot α)} {i : Nat} {p : α}
    (h : below? slots i = some p) : p ∈ parents slots := by
  obtain ⟨s, hs, hp⟩ := Option.bind_eq_some_iff.mp h
  exact mem_parents.mpr ⟨s, List.mem_of_getElem? hs, hp⟩

/-- The first of the nodes below that satisfies `test` lies below the first slot over such a node. -/
theorem below?_of_find? {test : α → Bool} {slots : List (Slot α)} {m : α}
    (h : (parents slots).find? test = some m) :
    ∃ j, below? slots j = some m ∧ test m = true ∧
      ∀ k < j, ∀ p, below? slots k = some p → test p = false := by
  induction slots with
  | nil => cases h
  | cons s rest ih =>
    obtain ⟨state, parent⟩ := s
    -- the first slot is over no such node, and the search goes on in the rest
    have later (no : ∀ p, parent = some p → test p = false)
        (h : (parents rest).find? test = some m) :
        ∃ j, below? (⟨state, parent⟩ :: rest) j = some m ∧ test m = true ∧
          ∀ k < j, ∀ p, below? (⟨state, parent⟩ :: rest) k = some p → test p = false := by
      obtain ⟨j, found, pass, before⟩ := ih h
      refine ⟨j + 1, found, pass, fun k lt p hp => ?_⟩
      cases k with
      | zero => exact no p hp
      | succ k => exact before k (Nat.lt_of_succ_lt_succ lt) p hp
    cases parent with
    | none => exact later nofun h
    | some p =>
      have e : parents (⟨state, some p⟩ :: rest) = p :: parents rest := rfl
      rw [e] at h
      by_cases pass : test p = true
      · rw [List.find?_cons_of_pos pass] at h
        obtain rfl := Option.some.inj h
        exact ⟨0, rfl, pass, fun k lt => absurd lt (Nat.not_lt_zero k)⟩
      · rw [List.find?_cons_of_neg pass] at h
        refine later (fun q hq => ?_) h
        obtain rfl := Option.some.inj hq
        exact Bool.eq_false_iff.mpr pass

end Slot

/-! ## 2. A pass with a set -/

/-- The node of a set that has the key and the structure of `p`. -/
def heldFor (kept : List Node) (p : Node) : Option Node :=
  kept.find? fun q => q.key == p.key && q == p

/-- The slots after a pass from the first to the last, with the set of the nodes that were kept
    before. A node below is replaced by the one of the set, and put into the set if there is none. -/
def coalesceFrom (kept : List Node) : List (Slot Node) → List (Slot Node)
  | [] => []
  | ⟨state, none⟩ :: rest => ⟨state, none⟩ :: coalesceFrom kept rest
  | ⟨state, some p⟩ :: rest =>
    match heldFor kept p with
    | some q => ⟨state, some q⟩ :: coalesceFrom kept rest
    | none => ⟨state, some p⟩ :: coalesceFrom (kept ++ [p]) rest

variable {g : Graph}

/-- Nodes of a graph are told apart by their structure, with or without their keys. -/
theorem heldFor_eq {kept : List Node} (hk : ∀ n ∈ kept, n ∈ g) {p : Node} (hp : p ∈ g) :
    heldFor kept p = kept.find? (· == p) := by
  refine List.find?_congr fun q hq => ?_
  cases e : (q == p) with
  | false => exact Bool.and_false _
  | true => rw [Graph.key_eq_of_beq (hk q hq) hp e, beq_self_eq_true, Bool.and_self]

/-- A node that is equal to an earlier one is never the earliest. -/
theorem earliest_drop {kept later : List Node} (hk : ∀ n ∈ kept, n ∈ g) {p q n : Node} (hp : p ∈ g)
    (hn : n ∈ g) (held : kept.find? (· == p) = some q) :
    earliest (kept ++ p :: later) n = earliest (kept ++ later) n := by
  unfold earliest
  rw [List.find?_append, List.find?_append]
  cases found : kept.find? (· == n) with
  | some m => rfl
  | none =>
    have hq := List.mem_of_find?_eq_some held
    have equal : (q == p) = true := by simpa using List.find?_some held
    have ne : ¬ (p == n) = true := fun e =>
      List.find?_eq_none.mp found q hq (Graph.beq_trans (hk q hq) hp hn equal e)
    have skipped : (p :: later).find? (· == n) = later.find? (· == n) := List.find?_cons_of_neg ne
    rw [skipped]

/-- The pass puts below each slot the earliest equal node of those kept before and those below. -/
theorem coalesceFrom_eq_map {kept : List Node} {slots : List (Slot Node)} (hk : ∀ n ∈ kept, n ∈ g)
    (hs : g.Within slots) :
    coalesceFrom kept slots = slots.map (Slot.map (earliest (kept ++ Slot.parents slots))) := by
  induction slots generalizing kept with
  | nil => rfl
  | cons s rest ih =>
    obtain ⟨state, parent⟩ := s
    cases parent with
    | none => exact congrArg (⟨state, none⟩ :: ·) (ih hk hs.tail)
    | some p =>
      have hp : p ∈ g := hs _ List.mem_cons_self p rfl
      have e : Slot.parents (⟨state, some p⟩ :: rest) = p :: Slot.parents rest := rfl
      rw [coalesceFrom, heldFor_eq hk hp, e, List.map_cons]
      cases held : kept.find? (· == p) with
      | some q =>
        have first : earliest (kept ++ p :: Slot.parents rest) p = q := by
          simp [earliest, List.find?_append, held]
        have others : rest.map (Slot.map (earliest (kept ++ p :: Slot.parents rest))) =
            rest.map (Slot.map (earliest (kept ++ Slot.parents rest))) := by
          refine List.map_congr_left fun s hs' => ?_
          obtain ⟨x, o⟩ := s
          cases o with
          | none => rfl
          | some n =>
            have hn : n ∈ g := hs.tail _ hs' n rfl
            exact congrArg (fun m => (⟨x, some m⟩ : Slot Node)) (earliest_drop hk hp hn held)
        rw [others, Slot.map, Option.map_some, first]
        exact congrArg (_ :: ·) (ih hk hs.tail)
      | none =>
        have first : earliest (kept ++ p :: Slot.parents rest) p = p := by
          simp [earliest, List.find?_append, held]
        have hk' : ∀ n ∈ kept ++ [p], n ∈ g :=
          List.forall_mem_append.mpr ⟨hk, List.forall_mem_singleton.mpr hp⟩
        have next := ih hk' hs.tail
        rw [List.append_assoc, List.singleton_append] at next
        rw [Slot.map, Option.map_some, first]
        exact congrArg (_ :: ·) next

/-- **The pass with a set makes equal nodes the earliest of them.** -/
theorem coalesceFrom_eq {slots : List (Slot Node)} (hs : g.Within slots) :
    coalesceFrom [] slots = coalesce slots :=
  coalesceFrom_eq_map (fun _ hn => absurd hn List.not_mem_nil) hs

/-! ## 3. Coalesced slots -/

/-- The slots are those of a union, over one node where the union has equal nodes below. -/
structure Coalesced (woven slots : List (Slot Node)) : Prop where
  states_eq : Slot.states slots = Slot.states woven
  none_iff : ∀ i, Slot.below? slots i = none ↔ Slot.below? woven i = none
  /-- What lies below a slot is equal to what the union has there. -/
  beq : ∀ i p q, Slot.below? woven i = some p → Slot.below? slots i = some q → (q == p) = true
  /-- It is the node of the first slot at which the union has an equal one. -/
  first : ∀ i q, Slot.below? slots i = some q →
    ∃ j ≤ i, Slot.below? woven j = some q ∧
      ∀ k < j, ∀ p, Slot.below? woven k = some p → (p == q) = false
  /-- Equal nodes below are one node. -/
  shared : ∀ i j p q, Slot.below? slots i = some p → Slot.below? slots j = some q →
    (p == q) = true → p = q
  /-- It is one node at two slots only if the union has equal nodes there. -/
  same_iff : ∀ i j p q p' q', Slot.below? woven i = some p → Slot.below? woven j = some q →
    Slot.below? slots i = some p' → Slot.below? slots j = some q' →
      (p' = q' ↔ (p == q) = true)

/-- A node of a list is replaced by one that is found in it. -/
theorem find?_earliest {nodes : List Node} {p : Node} (hp : p ∈ nodes) :
    nodes.find? (· == p) = some (earliest nodes p) := by
  unfold earliest
  cases e : nodes.find? (· == p) with
  | none => exact absurd (Node.beq_self p) (List.find?_eq_none.mp e p hp)
  | some q => rfl

/-- **Two nodes of a list are replaced by one node exactly when they are equal.** -/
theorem earliest_eq_iff {nodes : List Node} (hn : ∀ n ∈ nodes, n ∈ g) {p q : Node} (hp : p ∈ nodes)
    (hq : q ∈ nodes) : earliest nodes p = earliest nodes q ↔ (p == q) = true := by
  have gp := hn p hp
  have gq := hn q hq
  rw [Graph.beq_iff gp gq]
  constructor
  · intro e
    rw [← (tree_earliest hn gp).2, e, (tree_earliest hn gq).2]
  · intro e
    -- what is equal to the one node is equal to the other
    have same : nodes.find? (· == p) = nodes.find? (· == q) := by
      refine List.find?_congr fun m hm => ?_
      rw [Bool.eq_iff_iff, Graph.beq_iff (hn m hm) gp, Graph.beq_iff (hn m hm) gq, e]
    rw [find?_earliest hp, find?_earliest hq] at same
    exact Option.some.inj same

/-- **Of the slots over a graph, equal nodes below are made the earliest of them.** -/
theorem coalesced_coalesce {woven : List (Slot Node)} (hw : g.Within woven) :
    Coalesced woven (coalesce woven) := by
  have mem : ∀ n ∈ Slot.parents woven, n ∈ g := fun n hn => by
    obtain ⟨s, hs, e⟩ := Slot.mem_parents.mp hn
    exact hw s hs n e
  have below (i : Nat) : Slot.below? (coalesce woven) i =
      (Slot.below? woven i).map (earliest (Slot.parents woven)) := Slot.below?_map _ _ i
  have replaced {p : Node} (hp : p ∈ Slot.parents woven) := tree_earliest mem (mem p hp)
  constructor
  case states_eq => simp [coalesce]
  case none_iff =>
    intro i
    rw [below, Option.map_eq_none_iff]
  case beq =>
    intro i p q hp hq
    rw [below, hp] at hq
    obtain rfl := Option.some.inj hq
    have hp := Slot.mem_parents_of_below? hp
    exact (Graph.beq_iff (replaced hp).1 (mem p hp)).mpr (replaced hp).2
  case first =>
    intro i q hq
    rw [below] at hq
    obtain ⟨p, at_i, rfl⟩ := Option.map_eq_some_iff.mp hq
    have hp := Slot.mem_parents_of_below? at_i
    obtain ⟨j, hj, _, before⟩ := Slot.below?_of_find? (find?_earliest hp)
    refine ⟨j, Nat.le_of_not_lt fun lt => ?_, hj, fun k lt m hm => ?_⟩
    · have differs := before i lt p at_i
      rw [Node.beq_self] at differs
      cases differs
    · have hm' := mem m (Slot.mem_parents_of_below? hm)
      have differs := before k lt m hm
      rw [Bool.eq_false_iff, Ne, Graph.beq_iff hm' (mem p hp)] at differs
      rw [Bool.eq_false_iff, Ne, Graph.beq_iff hm' (replaced hp).1, (replaced hp).2]
      exact differs
  case shared =>
    intro i j p q hp hq e
    rw [below] at hp hq
    obtain ⟨p, at_i, rfl⟩ := Option.map_eq_some_iff.mp hp
    obtain ⟨q, at_j, rfl⟩ := Option.map_eq_some_iff.mp hq
    have hp := Slot.mem_parents_of_below? at_i
    have hq := Slot.mem_parents_of_below? at_j
    rw [Graph.beq_iff (replaced hp).1 (replaced hq).1, (replaced hp).2, (replaced hq).2] at e
    exact (earliest_eq_iff mem hp hq).mpr ((Graph.beq_iff (mem p hp) (mem q hq)).mpr e)
  case same_iff =>
    intro i j p q p' q' at_i at_j hp' hq'
    rw [below, at_i] at hp'
    rw [below, at_j] at hq'
    obtain rfl := Option.some.inj hp'
    obtain rfl := Option.some.inj hq'
    exact earliest_eq_iff mem (Slot.mem_parents_of_below? at_i) (Slot.mem_parents_of_below? at_j)

/-! ## 4. Merges of a choice -/

section Merges

variable {mode : Mode} {a b r : Node}

/-- A choice has several slots. -/
theorem two_le_of_choice (ha : a ∈ g) (h : a.kind = .choice) : 2 ≤ a.slots.length := by
  cases a with
  | bottom i => cases h
  | frame i k x p => cases h
  | choice i k slots => exact (g.sound ha).1

/-- **Two nodes of which one is a choice** are merged to an operand, or to a new choice between the
    coalesced slots of their union. -/
theorem joinSlots_ok {μ : Type} [Memo μ] {honest : Prop} {memo : MemoUpkeep μ honest mode}
    {s s' : Arena μ} (hs : memo.toUpkeep.At g s) (ha : a ∈ g) (hb : b ∈ g)
    (chosen : a.kind = .choice ∨ b.kind = .choice)
    (run : joinSlots a b (a.slots.map (Slot.map (mergeable mode))) s = .ok r s') :
    r = a ∨ r = b ∨ ∃ woven mid, ∃ g' : Graph,
      weave (a.slots.map (Slot.map (mergeable mode))) b.slots s = .ok woven mid ∧
      g'.Within woven ∧
      (honest → woven.map (Slot.map tree) = Tree.mergeSlots mode a.tree.slots b.tree.slots) ∧
      r.kind = .choice ∧ r.slots = coalesce woven := by
  unfold joinSlots at run
  obtain ⟨woven, mid, ran, run⟩ := GraphM.bind_ok run
  obtain ⟨n, s₂, made, run⟩ := GraphM.bind_ok run
  obtain ⟨rfl, rfl⟩ := EStateM.Result.ok.inj run
  obtain ⟨g', _, _, within, normal, trees⟩ := weave_within hs ha hb ran
  have long : 2 ≤ (coalesce woven).length := by
    have lengths := Maintains.weave_length (a.slots.map (Slot.map (mergeable mode))) b.slots s trivial
    rw [ran, List.length_map] at lengths
    obtain ⟨_, left, right⟩ := lengths
    rw [coalesce, List.length_map]
    rcases chosen with h | h
    · exact Nat.le_trans (two_le_of_choice ha h) left
    · exact Nat.le_trans (two_le_of_choice hb h) right
  have normal : NormalSlots (coalesce woven) := (normalSlots_map _).mpr normal
  have sound := fault?_eq_none_iff.mpr ⟨normal.ne_nil, normal.ascending, normal.no_orphan⟩
  rw [ofSlots_run_of_two_le sound long] at made
  obtain ⟨rfl, rfl⟩ := EStateM.Result.ok.inj made
  unfold reuse
  split
  · exact .inl rfl
  · split
    · exact .inr (.inl rfl)
    · exact .inr (.inr ⟨woven, mid, g', ran, within, trees, rfl, rfl⟩)

/-- A merge that ends at once is an operand. -/
theorem operand_of_atOnce (h : atOnce? mode a b = some r) : r = a ∨ r = b := by
  unfold atOnce? at h
  split_ifs at h
  · exact .inl (Option.some.inj h).symm
  · exact .inl (Option.some.inj h).symm
  · exact .inr (Option.some.inj h).symm

/-- **A merge of a choice without a memo** is an operand, or a choice between the coalesced slots of
    the union that was woven after the memo was asked in vain. -/
theorem merge_choice_ok {s s' : Arena Unit} (hs : s.next = g.next) (ha : a ∈ g) (hb : b ∈ g)
    (chosen : a.kind = .choice ∨ b.kind = .choice) (run : merge mode a b s = .ok r s') :
    r = a ∨ r = b ∨ ∃ woven mid, ∃ g' : Graph,
      weave (a.slots.map (Slot.map (mergeable mode))) b.slots (s.asked a b) = .ok woven mid ∧
      g'.Within woven ∧
      woven.map (Slot.map tree) = Tree.mergeSlots mode a.tree.slots b.tree.slots ∧
      r.kind = .choice ∧ r.slots = coalesce woven := by
  have at_asked : (MemoUpkeep.nothing mode).toUpkeep.At g (s.asked a b) := ⟨hs, trivial⟩
  rcases merge_eq (μ := Unit) mode a b with ⟨n, h, e⟩ | ⟨asks, compute, joining, e⟩
  · rw [e] at run
    obtain ⟨rfl, rfl⟩ := EStateM.Result.ok.inj run
    exact (operand_of_atOnce h).imp_right .inl
  · rw [e] at run
    rcases memoized_ok run with ⟨known, _⟩ | ⟨_, s₁, ran, _⟩
    · cases known
    · cases joining with
      | roots _ ka kb => exact absurd chosen (not_or.mpr ⟨ka, kb⟩)
      | frames => rcases chosen with h | h <;> cases h
      | choices _ =>
        refine (joinSlots_ok at_asked ha hb chosen ran).imp_right (.imp_right ?_)
        rintro ⟨woven, mid, g', ran, within, trees, made⟩
        exact ⟨woven, mid, g', ran, within, trees trivial, made⟩

end Merges

/-! ## 5. Merges in a session -/

/-- A computation that uses no table runs on the nodes and the journal of the session. -/
theorem SessionM.plain_ok {α : Type} {act : GraphM Unit α} {s after : Session} {x : α}
    (run : SessionM.plain act s = .ok x after) :
    ∃ inner, act ⟨s.next, s.journal, ()⟩ = .ok x inner := by
  unfold SessionM.plain GraphM.within at run
  split at run
  · rename_i y inner e
    obtain ⟨rfl, _⟩ := EStateM.Result.ok.inj run
    exact ⟨inner, e⟩
  · cases run

namespace Session

variable {a b : Node}

/-- **Equal nodes below a merge are one node.** Let two nodes of a session, of which one is a choice,
    be merged without a memo, to a node that is neither of them. Then the slots of both were woven
    into a union with the merged trees below, and the slots of the merge are those of the union after
    one pass with a set. So equal nodes below are one node, the one of the first slot at which the
    union has an equal node; what lies below a slot is equal to what the union has there; and
    different nodes of one key stay different. -/
theorem merge_coalesces (commands : List (Command × Option String)) (mode : Mode)
    (ha : (replay commands).Holds a) (hb : (replay commands).Holds b)
    (chosen : a.kind = .choice ∨ b.kind = .choice) :
    let s := replay commands
    s.Yields (SessionM.plain (merge mode a b)) fun r =>
      r.same a = false → r.same b = false →
      ∃ woven mid,
        weave (a.slots.map (Slot.map (mergeable mode))) b.slots
          (Arena.asked ⟨s.next, s.journal, ()⟩ a b) = .ok woven mid ∧
        woven.map (Slot.map tree) = Tree.mergeSlots mode a.tree.slots b.tree.slots ∧
        r.kind = .choice ∧ r.slots = coalesceFrom [] woven ∧ Coalesced woven r.slots := by
  intro s
  obtain ⟨g, hs⟩ := over_replay commands
  have ha := hs.mem ha
  have hb := hs.mem hb
  have grows : Grows False Bindings.upkeep g (SessionM.plain (merge mode a b)) fun _ _ => True :=
    (Grows.mergePlain ha hb).weaken fun _ _ _ _ => trivial
  obtain ⟨r, after, run, _⟩ := hs.yields hs.2 grows
  refine ⟨r, after, run, fun other other' => ?_⟩
  obtain ⟨inner, ran⟩ := SessionM.plain_ok run
  rcases merge_choice_ok hs.1 ha hb chosen ran with rfl | rfl | made
  · rw [same_refl] at other
    cases other
  · rw [same_refl] at other'
    cases other'
  · obtain ⟨woven, mid, g', ran, within, trees, kind, slots⟩ := made
    refine ⟨woven, mid, ran, trees, kind, slots.trans (coalesceFrom_eq within).symm, ?_⟩
    rw [slots]
    exact coalesced_coalesce within

/-- A session with two choices. Below the one lie two different nodes of one key, and below the other
    a node that is equal to the first of them. -/
def clashing : List (Command × Option String) :=
  [(.push "$" 5, some "short"), (.chain "$" [7, 11029992427887847723], some "long"),
    (.push "$" 5, some "twin"), (.ofLists [1, 2] [some "short", some "long"], some "a"),
    (.ofLists [3, 4] [some "twin", some "$"], some "b")]

theorem merge_coalesces_clashing :
    ∃ a b, (replay clashing).Holds a ∧ (replay clashing).Holds b ∧ a.kind = .choice ∧
      (replay clashing).Yields (SessionM.plain (merge .exact a b)) fun r =>
        r.same a = false ∧ r.same b = false ∧ ∃ p q, p ≠ q ∧ p.key = q.key ∧
          Slot.below? r.slots 0 = some p ∧ Slot.below? r.slots 1 = some q ∧
          Slot.below? r.slots 2 = some p := by
  let named (name : String) : Node := ((replay clashing).table.nodes.find? name).getD empty
  refine ⟨named "a", named "b", ⟨"a", rfl⟩, ⟨"b", rfl⟩, rfl, ?_⟩
  obtain ⟨r, after, run, told⟩ :=
    merge_coalesces clashing .exact (a := named "a") (b := named "b") ⟨"a", rfl⟩ ⟨"b", rfl⟩
      (.inl rfl)
  -- the merge is new, and of the three nodes below the outer two are equal and the others are not
  have seen : (EStateM.run' (SessionM.plain (merge .exact (named "a") (named "b")))
      (replay clashing)).bind (fun r =>
        (Slot.below? r.slots 0).bind fun p =>
          (Slot.below? r.slots 1).bind fun q =>
            (Slot.below? r.slots 2).map fun p' =>
              !r.same (named "a") && !r.same (named "b") && !(p == q) && p.key == q.key && p == p') =
        some true := by decide +kernel
  have given : EStateM.run' (SessionM.plain (merge .exact (named "a") (named "b")))
      (replay clashing) = some r := by
    unfold EStateM.run' EStateM.run
    rw [run]
  rw [given, Option.bind_some] at seen
  obtain ⟨p, at_p, seen⟩ := Option.bind_eq_some_iff.mp seen
  obtain ⟨q, at_q, seen⟩ := Option.bind_eq_some_iff.mp seen
  obtain ⟨p', at_p', seen⟩ := Option.map_eq_some_iff.mp seen
  simp only [Bool.and_eq_true, Bool.not_eq_true', beq_iff_eq] at seen
  obtain ⟨⟨⟨⟨other, other'⟩, differ⟩, key⟩, equal⟩ := seen
  obtain ⟨_, _, _, _, _, _, coalesced⟩ := told other other'
  have one := coalesced.shared 0 2 p p' at_p at_p' equal
  refine ⟨r, after, run, other, other', p, q, ?_, key, at_p, at_q, one ▸ at_p'⟩
  intro same
  rw [same, Node.beq_self] at differ
  cases differ

end Session

end StackGraph
