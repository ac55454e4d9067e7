import StackGraph.Proofs.Sessions
import StackGraph.Proofs.TreeHistories

/-!
# Groupings of merges

Several nodes may be merged in any order and with any brackets. The merge of trees is the least
upper bound of an order in which a tree lies below what a merge with it does not change, so what a
grouping gives depends on nothing but the trees that are grouped.

* `Tree.Below` -- the order of the merge; `Tree.merge_below_iff` says that a merge is the least
  upper bound;
* `Grouping` -- a bracketing; `Grouping.ofList` is the fold from the left;
* `Grouping.tree_eq_of_members` -- **groupings of the same trees give one tree**;
* `Grows.grouping`, `Grows.groupingPlain` -- the merges of a grouping never fail and have the tree
  of the grouping.
-/

namespace StackGraph

/-! ## 1. The order of the merge -/

namespace Tree

variable {mode : Mode} {a b c : Tree}

/-- The tree `a` lies below `b`: a merge with `a` does not change `b`. -/
def Below (mode : Mode) (a b : Tree) : Prop := merge mode a b = b

theorem Below.refl (ha : Proper a) : Below mode a a := merge_self ha

theorem Below.antisymm (ha : Proper a) (hb : Proper b) (h : Below mode a b) (h' : Below mode b a) :
    a = b :=
  calc a = merge mode b a := h'.symm
    _ = merge mode a b := merge_comm hb ha
    _ = b := h

/-- **The merge is the least upper bound.** -/
theorem merge_below_iff (ha : Proper a) (hb : Proper b) (hc : Proper c) :
    Below mode (merge mode a b) c ↔ Below mode a c ∧ Below mode b c := by
  constructor
  · intro (h : merge mode (merge mode a b) c = c)
    have hab : Proper (merge mode a b) := ha.merge hb
    have left : merge mode a (merge mode a b) = merge mode a b := by
      rw [← merge_assoc ha ha hb, merge_self ha]
    have right : merge mode b (merge mode a b) = merge mode a b := by
      rw [merge_comm hb hab, merge_assoc ha hb hb, merge_self hb]
    constructor
    · show merge mode a c = c
      rw [← h, ← merge_assoc ha hab hc, left]
    · show merge mode b c = c
      rw [← h, ← merge_assoc hb hab hc, right]
  · rintro ⟨h, h'⟩
    show merge mode (merge mode a b) c = c
    rw [merge_assoc ha hb hc, h', h]

end Tree

/-! ## 2. Groupings -/

/-- A bracketing of values. -/
inductive Grouping (α : Type) where
  | single (a : α)
  | both (left right : Grouping α)

namespace Grouping

variable {α : Type}

/-- What is grouped, from the left to the right. -/
def members : Grouping α → List α
  | single a => [a]
  | both left right => left.members ++ right.members

/-- The grouping of a fold from the left. -/
def ofList (first : α) (rest : List α) : Grouping α :=
  rest.foldl (fun p a => both p (single a)) (single first)

/-- Merges the nodes as they are grouped. -/
def merge {μ : Type} [Memo μ] (mode : Mode) : Grouping Node → GraphM μ Node
  | single n => pure n
  | both left right => do StackGraph.merge mode (← left.merge mode) (← right.merge mode)

/-- Merges the trees of the nodes as they are grouped. -/
def tree (mode : Mode) : Grouping Node → Tree
  | single n => n.tree
  | both left right => Tree.merge mode (left.tree mode) (right.tree mode)

theorem forall_members_both {P : α → Prop} {left right : Grouping α} :
    (∀ a ∈ (both left right).members, P a) ↔ (∀ a ∈ left.members, P a) ∧ ∀ a ∈ right.members, P a :=
  List.forall_mem_append

theorem members_ofList (first : α) (rest : List α) :
    (ofList first rest).members = first :: rest := by
  have step : ∀ (rest : List α) (p : Grouping α),
      (rest.foldl (fun p a => both p (single a)) p).members = p.members ++ rest := by
    intro rest
    induction rest with
    | nil => exact fun p => (List.append_nil _).symm
    | cons a rest ih =>
      intro p
      rw [List.foldl_cons, ih, members, members, List.append_assoc]
      rfl
  exact step rest (single first)

/-- **The fold from the left is the merge of its grouping.** -/
theorem merge_ofList {μ : Type} [Memo μ] (mode : Mode) (first : Node) (rest : List Node) :
    (ofList first rest).merge (μ := μ) mode = mergeAll mode (first :: rest) := by
  have step : ∀ (rest : List Node) (p : Grouping Node),
      (rest.foldl (fun p a => both p (single a)) p).merge (μ := μ) mode =
        p.merge mode >>= fun n => rest.foldlM (StackGraph.merge mode) n := by
    intro rest
    induction rest with
    | nil => exact fun p => (bind_pure _).symm
    | cons n rest ih =>
      intro p
      rw [List.foldl_cons, ih]
      simp only [merge, pure_bind, bind_assoc, List.foldlM_cons]
  rw [ofList, step, merge, pure_bind]
  rfl

section Trees

variable {mode : Mode} {p q : Grouping Node}

theorem proper_tree (h : ∀ n ∈ p.members, n.tree.Proper) : (p.tree mode).Proper := by
  induction p with
  | single n => exact h n List.mem_cons_self
  | both left right ihl ihr =>
    obtain ⟨hl, hr⟩ := forall_members_both.mp h
    exact (ihl hl).merge (ihr hr)

/-- The tree of a grouping is the least upper bound of its members. -/
theorem tree_below_iff (h : ∀ n ∈ p.members, n.tree.Proper) {t : Tree} (ht : t.Proper) :
    Tree.Below mode (p.tree mode) t ↔ ∀ n ∈ p.members, Tree.Below mode n.tree t := by
  induction p with
  | single n =>
    exact ⟨fun hn m hm => List.mem_singleton.mp hm ▸ hn, fun hn => hn n List.mem_cons_self⟩
  | both left right ihl ihr =>
    obtain ⟨hl, hr⟩ := forall_members_both.mp h
    rw [tree, Tree.merge_below_iff (proper_tree hl) (proper_tree hr) ht, ihl hl, ihr hr,
      forall_members_both]

/-- Each tree of the one grouping lies below the tree of another that has it too. -/
theorem tree_below_of_members (hp : ∀ n ∈ p.members, n.tree.Proper)
    (hq : ∀ n ∈ q.members, n.tree.Proper)
    (sub : ∀ m ∈ p.members, ∃ n ∈ q.members, m.tree = n.tree) :
    Tree.Below mode (p.tree mode) (q.tree mode) := by
  have hqt : (q.tree mode).Proper := proper_tree hq
  refine (tree_below_iff hp hqt).mpr fun m hm => ?_
  obtain ⟨n, hn, e⟩ := sub m hm
  rw [e]
  exact (tree_below_iff hq hqt).mp (.refl hqt) n hn

/-- **Groupings of the same trees give one tree**, whatever the order, the repetitions and the
    brackets. -/
theorem tree_eq_of_members (hp : ∀ n ∈ p.members, n.tree.Proper)
    (hq : ∀ n ∈ q.members, n.tree.Proper)
    (sub : ∀ m ∈ p.members, ∃ n ∈ q.members, m.tree = n.tree)
    (sup : ∀ n ∈ q.members, ∃ m ∈ p.members, n.tree = m.tree) : p.tree mode = q.tree mode :=
  Tree.Below.antisymm (proper_tree hp) (proper_tree hq) (tree_below_of_members hp hq sub)
    (tree_below_of_members hq hp sup)

/-- Merges with wildcards of trees in which only bottoms end a stack give another such tree. -/
theorem noChoiceEnds_tree (h : ∀ n ∈ p.members, n.tree.Proper)
    (ends : ∀ n ∈ p.members, n.tree.NoChoiceEnds) : (p.tree .wildcard).NoChoiceEnds := by
  induction p with
  | single n => exact ends n List.mem_cons_self
  | both left right ihl ihr =>
    obtain ⟨hl, hr⟩ := forall_members_both.mp h
    obtain ⟨el, er⟩ := forall_members_both.mp ends
    exact (ihl hl el).merge (ihr hr er) (proper_tree hl) (proper_tree hr)

end Trees

end Grouping

/-- The merges of a grouping never fail, and have the tree of the grouping. -/
theorem Grows.grouping {μ : Type} [Memo μ] {honest : Prop} {mode : Mode}
    {memo : MemoUpkeep μ honest mode} {g : Graph} {p : Grouping Node} (h : ∀ n ∈ p.members, n ∈ g) :
    Grows False memo.toUpkeep g (p.merge mode)
      fun g' r => r ∈ g' ∧ (honest → r.tree = p.tree mode) := by
  induction p generalizing g with
  | single n => exact .pure ⟨h n List.mem_cons_self, fun _ => rfl⟩
  | both left right ihl ihr =>
    obtain ⟨hl, hr⟩ := Grouping.forall_members_both.mp h
    refine (ihl hl).bind fun g₁ a le ⟨ha, ea⟩ => ?_
    refine (ihr fun n hn => le n (hr n hn)).bind fun g₂ b le' ⟨hb, eb⟩ => ?_
    refine (merge (le' a ha) hb).weaken fun g₃ r _ hm => ⟨hm.mem, fun ho => ?_⟩
    rw [hm.tree_eq ho, ea ho, eb ho, Grouping.tree]

/-- The merges of a grouping without a memo have the tree of the grouping. -/
theorem Grows.groupingPlain {inv : Upkeep Bindings} {mode : Mode} {g : Graph}
    {p : Grouping Node} (h : ∀ n ∈ p.members, n ∈ g) :
    Grows False inv g (SessionM.plain (p.merge mode))
      fun g' r => r ∈ g' ∧ r.tree = p.tree mode := by
  have merged : Grows False (MemoUpkeep.nothing mode).toUpkeep g (p.merge mode) _ := grouping h
  exact (plain merged).weaken fun _ _ _ ⟨hr, er⟩ => ⟨hr, er trivial⟩

end StackGraph
