import StackGraph.Proofs.Groupings

/-!
# The laws of the merge

Up to structural equality the merge of nodes is a semilattice operation in both modes. So nodes may
be merged in any order, with any repetitions and any brackets.

* `Session.merge_is_semilattice` -- **commutative, associative, idempotent**, and what follows for
  several nodes.
-/

namespace StackGraph

variable {g : Graph}

namespace Session

/-- Groupings of equal nodes agree. -/
theorem Over.agree_groupings {s : Session} (hs : s.Over g) {mode : Mode} {p q : Grouping Node}
    (hp : ∀ n ∈ p.members, n ∈ g) (hq : ∀ n ∈ q.members, n ∈ g)
    (sub : ∀ m ∈ p.members, ∃ n ∈ q.members, (m == n) = true)
    (sup : ∀ n ∈ q.members, ∃ m ∈ p.members, (n == m) = true) :
    s.Agree (SessionM.plain (p.merge mode)) (SessionM.plain (q.merge mode)) := by
  have trees : p.tree mode = q.tree mode := by
    refine Grouping.tree_eq_of_members (fun n hn => Graph.proper_tree (hp n hn))
      (fun n hn => Graph.proper_tree (hq n hn)) (fun m hm => ?_) fun n hn => ?_
    · obtain ⟨n, hn, e⟩ := sub m hm
      exact ⟨n, hn, (Graph.beq_iff (hp m hm) (hq n hn)).mp e⟩
    · obtain ⟨m, hm, e⟩ := sup n hn
      exact ⟨m, hm, (Graph.beq_iff (hq n hn) (hp m hm)).mp e⟩
  refine hs.agree hs.2 (Grows.groupingPlain hp) fun g' le => ?_
  rw [trees]
  exact Grows.groupingPlain fun n hn => le n (hq n hn)

/-- Folds over equal nodes agree. -/
theorem Over.agree_mergeAll {s : Session} (hs : s.Over g) {mode : Mode} {xs ys : List Node}
    (hxs : xs ≠ []) (hys : ys ≠ []) (hx : ∀ n ∈ xs, n ∈ g) (hy : ∀ n ∈ ys, n ∈ g)
    (sub : ∀ m ∈ xs, ∃ n ∈ ys, (m == n) = true) (sup : ∀ n ∈ ys, ∃ m ∈ xs, (n == m) = true) :
    s.Agree (SessionM.plain (mergeAll mode xs)) (SessionM.plain (mergeAll mode ys)) := by
  obtain ⟨x, xs, rfl⟩ := List.exists_cons_of_ne_nil hxs
  obtain ⟨y, ys, rfl⟩ := List.exists_cons_of_ne_nil hys
  rw [← Grouping.merge_ofList, ← Grouping.merge_ofList]
  rw [← Grouping.members_ofList x xs, ← Grouping.members_ofList y ys] at sub sup
  rw [← Grouping.members_ofList x xs] at hx
  rw [← Grouping.members_ofList y ys] at hy
  exact hs.agree_groupings hx hy sub sup

variable {a b c : Node}

/-- **The merge is a semilattice operation up to equality, in both modes.** Any two ways to merge
    the same nodes, up to equality, give equal nodes. -/
theorem merge_is_semilattice (commands : List (Command × Option String)) (mode : Mode)
    (ha : (replay commands).Holds a) (hb : (replay commands).Holds b)
    (hc : (replay commands).Holds c) :
    (replay commands).Agree (SessionM.plain (merge mode a b)) (SessionM.plain (merge mode b a)) ∧
    (replay commands).Agree
      (do SessionM.plain (merge mode (← SessionM.plain (merge mode a b)) c))
      (do SessionM.plain (merge mode a (← SessionM.plain (merge mode b c)))) ∧
    (∀ a', (replay commands).Holds a' → (a' == a) = true →
      (replay commands).Agree (SessionM.plain (merge mode a a')) (pure a)) ∧
    (∀ p q : Grouping Node, (∀ n ∈ p.members, (replay commands).Holds n) →
      (∀ n ∈ q.members, (replay commands).Holds n) →
      (∀ m ∈ p.members, ∃ n ∈ q.members, (m == n) = true) →
      (∀ n ∈ q.members, ∃ m ∈ p.members, (n == m) = true) →
      (replay commands).Agree (SessionM.plain (p.merge mode)) (SessionM.plain (q.merge mode))) ∧
    (∀ xs ys : List Node, xs ≠ [] → ys ≠ [] → (∀ n ∈ xs, (replay commands).Holds n) →
      (∀ n ∈ ys, (replay commands).Holds n) → (∀ m ∈ xs, ∃ n ∈ ys, (m == n) = true) →
      (∀ n ∈ ys, ∃ m ∈ xs, (n == m) = true) →
      (replay commands).Agree (SessionM.plain (mergeAll mode xs))
        (SessionM.plain (mergeAll mode ys))) := by
  obtain ⟨g, hs⟩ := over_replay commands
  have ha := hs.mem ha
  have hb := hs.mem hb
  have hc := hs.mem hc
  refine ⟨?_, ?_, fun a' ha' e => ?_, fun p q hp hq => ?_, fun xs ys hxs hys hx hy => ?_⟩
  · refine hs.agree hs.2 (Grows.mergePlain ha hb) fun g₁ le => ?_
    rw [Tree.merge_comm (Graph.proper_tree ha) (Graph.proper_tree hb)]
    exact Grows.mergePlain (le b hb) (le a ha)
  · have left : Grows False Bindings.upkeep g
        (do SessionM.plain (merge mode (← SessionM.plain (merge mode a b)) c))
        fun g' r => r ∈ g' ∧ r.tree = Tree.merge mode (Tree.merge mode a.tree b.tree) c.tree := by
      refine (Grows.mergePlain ha hb).bind fun g₁ ab le ⟨hab, e⟩ => ?_
      rw [← e]
      exact Grows.mergePlain hab (le c hc)
    refine hs.agree hs.2 left fun g₁ le => ?_
    rw [Tree.merge_assoc (Graph.proper_tree ha) (Graph.proper_tree hb) (Graph.proper_tree hc)]
    refine (Grows.mergePlain (le b hb) (le c hc)).bind fun g₂ bc le' ⟨hbc, e⟩ => ?_
    rw [← e]
    exact Grows.mergePlain (le' a (le a ha)) hbc
  · have ha' := hs.mem ha'
    refine hs.agree hs.2 (Grows.mergePlain ha ha') fun g₁ le => .pure ⟨le a ha, ?_⟩
    rw [(Graph.beq_iff ha' ha).mp e, Tree.merge_self (Graph.proper_tree ha)]
  · exact hs.agree_groupings (fun n hn => hs.mem (hp n hn)) fun n hn => hs.mem (hq n hn)
  · exact hs.agree_mergeAll hxs hys (fun n hn => hs.mem (hx n hn)) fun n hn => hs.mem (hy n hn)

/-- Three nodes in several orders and groupings, with a twin in the place of one of them. -/
theorem merge_is_semilattice_sample :
    ∃ a b c twin, (replay sample).Holds a ∧ (replay sample).Holds b ∧ (replay sample).Holds c ∧
      (replay sample).Holds twin ∧
      (replay sample).Agree (SessionM.plain (merge .wildcard a b))
        (SessionM.plain (merge .wildcard b a)) ∧
      (replay sample).Agree
        (do SessionM.plain (merge .wildcard (← SessionM.plain (merge .wildcard a b)) c))
        (do SessionM.plain (merge .wildcard a (← SessionM.plain (merge .wildcard b c)))) ∧
      (replay sample).Agree (SessionM.plain (merge .wildcard a twin)) (pure a) ∧
      (replay sample).Agree
        (SessionM.plain ((Grouping.both (.single a) (.both (.single b) (.single c))).merge .wildcard))
        (SessionM.plain
          ((Grouping.both (.both (.single c) (.single b)) (.single twin)).merge .wildcard)) ∧
      (replay sample).Agree (SessionM.plain (mergeAll .wildcard [a, twin]))
        (SessionM.plain (mergeAll .wildcard [twin])) := by
  refine ⟨_, _, _, _, ⟨"a", rfl⟩, ⟨"b", rfl⟩, ⟨"c", rfl⟩, ⟨"twin", rfl⟩, ?_⟩
  obtain ⟨comm, assoc, idem, groupings, folds⟩ :=
    merge_is_semilattice sample .wildcard ⟨"a", rfl⟩ ⟨"b", rfl⟩ ⟨"c", rfl⟩
  refine ⟨comm, assoc, idem _ ⟨"twin", rfl⟩ (by decide +kernel),
    groupings _ _ ?_ ?_ (by decide +kernel) (by decide +kernel),
    folds _ _ (by simp) (by simp) ?_ ?_ ?_ ?_⟩
  · exact List.forall_mem_cons.mpr ⟨⟨"a", rfl⟩, List.forall_mem_cons.mpr ⟨⟨"b", rfl⟩,
      List.forall_mem_singleton.mpr ⟨"c", rfl⟩⟩⟩
  · exact List.forall_mem_cons.mpr ⟨⟨"c", rfl⟩, List.forall_mem_cons.mpr ⟨⟨"b", rfl⟩,
      List.forall_mem_singleton.mpr ⟨"twin", rfl⟩⟩⟩
  · exact List.forall_mem_cons.mpr ⟨⟨"a", rfl⟩, List.forall_mem_singleton.mpr ⟨"twin", rfl⟩⟩
  · exact List.forall_mem_singleton.mpr ⟨"twin", rfl⟩
  · exact List.forall_mem_cons.mpr ⟨⟨_, List.mem_cons_self, by decide +kernel⟩,
      List.forall_mem_singleton.mpr ⟨_, List.mem_cons_self, by decide +kernel⟩⟩
  · exact List.forall_mem_singleton.mpr ⟨_, List.mem_cons_self, by decide +kernel⟩

end Session

end StackGraph
