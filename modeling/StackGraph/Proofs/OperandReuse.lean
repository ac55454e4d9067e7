import StackGraph.Proofs.PlainNodes

/-!
# A merge reuses its operands

A merge that has the structure of an operand is this operand, and no copy of it. This is decided at
the top alone: whatever the merges below have made, it is compared by structure with what lies below
the operands. Only a bottom beside the common one is lost, since a merge of bottoms gives the common
bottom; so the operands should be no such bottoms, though what lies below them may be.

For plain nodes an exact merge is the left operand exactly when that operand has all histories of
the other, and else it is the right operand exactly when the right one has.

* `Grows.mergeReuses` -- a merge without a memo reuses its operands;
* `Session.merge_is_operand` -- **the merge is an operand where it can be**.
-/

namespace StackGraph

open Node

variable {g : Graph} {mode : Mode} {a b : Node}

/-! ## 1. Merges without a memo -/

namespace Grows

/-- What is known of the result alone may be put beside what is known over the graph. -/
theorem beside {τ α : Type} {fails fails' : Prop} {inv : Upkeep τ} {act : GraphM τ α}
    {post : Graph → α → Prop} {P : α → Prop} (h : Grows fails inv g act post)
    (h' : Grows fails' inv g act fun _ a => P a) :
    Grows fails inv g act fun g' a => post g' a ∧ P a := by
  intro s hs
  have known := h s hs
  have result := h' s hs
  cases e : act s with
  | ok a s' =>
    rw [e] at known result
    obtain ⟨g', le, hs', hpost⟩ := known
    obtain ⟨_, _, _, hP⟩ := result
    exact ⟨g', le, hs', hpost, hP⟩
  | error f s' =>
    rw [e] at known
    exact known

/-- The memo that remembers nothing leaves the result of a computation as it is. -/
theorem unremembered {compute : GraphM Unit Node} {P : Node → Prop}
    (h : ∀ g', g ≤ g' → Grows False .none g' compute fun _ m => P m) :
    Grows False .none g (StackGraph.memoized a b compute) fun _ m => P m := by
  have unknown : Grows False .none g (StackGraph.lookUp (μ := Unit) a b)
      fun _ found => found = none :=
    fun s hs => ⟨g, g.le_refl, hs, rfl⟩
  unfold StackGraph.memoized
  refine unknown.bind fun g₁ found le e => ?_
  subst e
  refine (h g₁ le).bind fun g₂ m _ hm => ?_
  have stored : Grows False .none g₂ (remember (μ := Unit) a b m) fun _ _ => True :=
    (change fun _ _ => trivial).bind fun _ _ _ _ => emit _
  exact stored.bind fun _ _ _ _ => .pure hm

/-- Either way leads to an operand where it can. -/
theorem wayReuses {act : GraphM Unit Node} (h : MergeWay (.nothing mode) g a b act)
    (na : a.NoOtherBottom) (nb : b.NoOtherBottom) :
    Grows False .none g act fun _ m => Reuses a b m := by
  cases h with
  | known _ r => exact .pure r
  | computed h =>
    exact unremembered fun g' le => (h g' le).weaken fun _ _ _ ⟨_, r⟩ => r na nb

/-- **A merge without a memo is an operand where it has the tree of one.** -/
theorem mergeReuses (ha : a ∈ g) (hb : b ∈ g) (na : a.NoOtherBottom) (nb : b.NoOtherBottom) :
    Grows False .none g (StackGraph.merge (μ := Unit) mode a b) fun g' m =>
      Merged True mode g' a b m ∧ Reuses a b m := by
  have merged : Grows False (MemoUpkeep.nothing mode).toUpkeep g (StackGraph.merge mode a b) _ :=
    merge ha hb
  exact merged.beside (wayReuses (mergeWay ha hb) na nb)

end Grows

/-! ## 2. Operands by their histories -/

/-- A frame over a chain, beside the end of a stack, is plain. -/
theorem Node.IsChain.plain_besideEnd {p : Node} (h : p.IsChain) (i : Nat) (k : Key) {x : State}
    (hx : x ≠ State.bottom) : (choice i k [⟨x, some p⟩, ⟨State.bottom, none⟩]).Plain := by
  refine plain_of_parents (fun _ => ?_) (List.forall_mem_singleton.mpr h.plain)
  exact List.forall_mem_cons.mpr ⟨⟨nofun, fun e => absurd e hx⟩,
    List.forall_mem_singleton.mpr ⟨fun _ => rfl, fun _ => rfl⟩⟩

/-- The exact merge of plain trees is the left one when that has all histories of the right one. -/
theorem Tree.Plain.merge_eq_left_iff {a b : Tree} (pa : a.Plain) (pb : b.Plain) (ha : a.Proper)
    (hb : b.Proper) : Tree.merge .exact a b = a ↔ ∀ h ∈ b.histories, h ∈ a.histories := by
  constructor
  · intro e h hh
    rw [← e]
    exact (mem_histories_merge_exact ha hb).mpr (.inr hh)
  · intro sub
    refine (pa.merge pb ha hb).eq_of_histories pa (ha.merge hb) ha fun h => ?_
    rw [mem_histories_merge_exact ha hb]
    exact ⟨fun mem => mem.elim id (sub h), .inl⟩

theorem Tree.Plain.merge_eq_right_iff {a b : Tree} (pa : a.Plain) (pb : b.Plain) (ha : a.Proper)
    (hb : b.Proper) : Tree.merge .exact a b = b ↔ ∀ h ∈ a.histories, h ∈ b.histories := by
  rw [merge_comm ha hb]
  exact pb.merge_eq_left_iff pa hb ha

namespace Session

/-- **The merge of two nodes is an operand where it can be.** If it is equal to the left operand, it
    is this very node, and else, if it is equal to the right one, it is that very node. So an exact
    merge of plain nodes is the left operand exactly when that has all histories of the right one,
    and otherwise it is the right operand exactly when the right one has all of the left one. -/
theorem merge_is_operand (commands : List (Command × Option String)) (mode : Mode)
    (ha : (replay commands).Holds a) (hb : (replay commands).Holds b)
    (na : a.NoOtherBottom) (nb : b.NoOtherBottom) :
    (replay commands).Yields (SessionM.plain (merge mode a b)) fun r =>
      ((r == a) = true → r.same a = true) ∧
      ((r == a) = false → (r == b) = true → r.same b = true) ∧
      (mode = .exact → a.Plain → b.Plain →
        (r.same a = true ↔ ∀ h ∈ b.histories, h ∈ a.histories) ∧
        (r.same a = false →
          (r.same b = true ↔ ∀ h ∈ a.histories, h ∈ b.histories))) := by
  obtain ⟨g, hs⟩ := over_replay commands
  have ha := hs.mem ha
  have hb := hs.mem hb
  refine hs.yields hs.2 ((Grows.plain (Grows.mergeReuses ha hb na nb)).weaken ?_)
  intro g' r le ⟨hr, reuses⟩
  have equal_a := Graph.beq_iff hr.mem (le a ha)
  have equal_b := Graph.beq_iff hr.mem (le b hb)
  have is_a : r.same a = true ↔ r.tree = a.tree := by
    constructor
    · exact fun same => congrArg tree (Graph.eq_of_same hr.mem (le a ha) same)
    · exact fun e => reuses.left e ▸ same_refl _
  have is_b (ne : r.tree ≠ a.tree) : r.same b = true ↔ r.tree = b.tree := by
    constructor
    · exact fun same => congrArg tree (Graph.eq_of_same hr.mem (le b hb) same)
    · exact fun e => reuses.right ne e ▸ same_refl _
  refine ⟨fun e => is_a.mpr (equal_a.mp e), fun ne e => ?_, fun exact_mode pa pb => ?_⟩
  · exact (is_b fun e' => absurd (equal_a.mpr e') (Bool.eq_false_iff.mp ne)).mpr (equal_b.mp e)
  · subst exact_mode
    have ta := Graph.proper_tree ha
    have tb := Graph.proper_tree hb
    have pa := (Node.plain_iff ta).mp pa
    have pb := (Node.plain_iff tb).mp pb
    have er := hr.tree_eq trivial
    refine ⟨?_, fun ne => ?_⟩
    · rw [is_a, er]
      exact pa.merge_eq_left_iff pb ta tb
    · rw [is_b fun e => absurd (is_a.mpr e) (Bool.eq_false_iff.mp ne), er]
      exact pa.merge_eq_right_iff pb ta tb

theorem merge_is_operand_sample :
    ∃ a b, (replay sample).Holds a ∧ (replay sample).Holds b ∧ a.NoOtherBottom ∧ b.NoOtherBottom ∧
      a.Plain ∧ b.Plain ∧ a.histories = [[3, 2]] ∧ b.histories = [[3, 2], []] ∧
      (replay sample).Yields (SessionM.plain (merge .exact a b)) fun r =>
        r.same a = false ∧ r.same b = true := by
  have chain := (isChain_bottom 0).frame 1 (Key.frame 2 Key.bottom) 2
  have pa := (chain.frame 2 (Key.frame 3 (Key.frame 2 Key.bottom)) 3).plain
  have pb := chain.plain_besideEnd 5
    (Key.choice [⟨3, some (Key.frame 2 Key.bottom)⟩, ⟨State.bottom, none⟩]) (x := 3) (by decide)
  refine ⟨_, _, ⟨"a", rfl⟩, ⟨"b", rfl⟩, nofun, nofun, pa, pb, rfl, rfl, ?_⟩
  obtain ⟨r, after, run, _, _, plain⟩ :=
    merge_is_operand sample .exact ⟨"a", rfl⟩ ⟨"b", rfl⟩ nofun nofun
  obtain ⟨left, right⟩ := plain rfl pa pb
  have not_left : r.same _ = false :=
    Bool.eq_false_iff.mpr fun same => absurd (left.mp same [] (by decide)) (by decide)
  exact ⟨r, after, run, not_left, (right not_left).mpr (by decide)⟩

end Session

end StackGraph
