import StackGraph.Merge.Memo
import StackGraph.Proofs.Growth
import StackGraph.Proofs.TreeMerge

/-!
# Memos of merges over a graph

A memo answers with nodes of the graph. Where it is `honest`, what it answers for two nodes has the
merged tree; a memo of which nothing is known but that its nodes are in the graph may answer wrong.
Both are treated at once: `honest` is a proposition, and the tree of a merge is known under it.

* `Merged` -- what is known of the merge of two nodes;
* `MemoUpkeep` -- what a memo has to keep up; `MemoUpkeep.nothing` is the one of the memo that
  remembers nothing, and is honest;
* `Grows.memoized` -- a merge that is computed, or answered by the memo in either order.
-/

namespace StackGraph

open Node

/-- The node `m` of the graph is the merge of `a` and `b`, where the memo is honest. -/
structure Merged (honest : Prop) (mode : Mode) (g : Graph) (a b m : Node) : Prop where
  mem : m ∈ g
  tree_eq : honest → m.tree = Tree.merge mode a.tree b.tree

/-- A fact about a memo that makes its answers merges, and that storing a merge keeps. -/
structure MemoUpkeep (μ : Type) [Memo μ] (honest : Prop) (mode : Mode) extends Upkeep μ where
  find? : ∀ {g : Graph} {t : μ} {a b m : Node}, Holds g t → a ∈ g → b ∈ g →
    Memo.find? t a b = some m → Merged honest mode g a b m
  store : ∀ {g : Graph} {t : μ} {a b m : Node}, Holds g t → a ∈ g → b ∈ g →
    Merged honest mode g a b m → Holds g (Memo.store t a b m)

/-- A memo that remembers nothing is honest. -/
def MemoUpkeep.nothing (mode : Mode) : MemoUpkeep Unit True mode where
  toUpkeep := .none
  find? _ _ _ h := nomatch h
  store _ _ _ _ := trivial

variable {μ : Type} [Memo μ] {honest : Prop} {mode : Mode} {memo : MemoUpkeep μ honest mode}
  {g g' : Graph} {a b m : Node}

theorem Merged.mono (h : Merged honest mode g a b m) (le : g ≤ g') : Merged honest mode g' a b m :=
  ⟨le m h.mem, h.tree_eq⟩

/-- The merge does not depend on the order. -/
theorem Merged.symm (h : Merged honest mode g a b m) (ha : a ∈ g) (hb : b ∈ g) :
    Merged honest mode g b a m :=
  ⟨h.mem, fun ho => (h.tree_eq ho).trans
    (Tree.merge_comm (Graph.proper_tree ha) (Graph.proper_tree hb))⟩

theorem Merged.self (ha : a ∈ g) : Merged honest mode g a a a :=
  ⟨ha, fun _ => (Tree.merge_self (Graph.proper_tree ha)).symm⟩

namespace Grows

theorem ask (ha : a ∈ g) (hb : b ∈ g) :
    Grows False memo.toUpkeep g (StackGraph.ask a b)
      fun g' found => ∀ m, found = some m → Merged honest mode g' a b m := by
  unfold StackGraph.ask
  refine table.bind fun g₁ t le ht => (emit _).bind fun g₂ _ le' _ => .pure fun m h => ?_
  exact (memo.find? ht (le a ha) (le b hb) h).mono le'

/-- Whichever order the memo knows, its answer is the merge. -/
theorem lookUp (ha : a ∈ g) (hb : b ∈ g) :
    Grows False memo.toUpkeep g (StackGraph.lookUp a b)
      fun g' found => ∀ m, found = some m → Merged honest mode g' a b m := by
  unfold StackGraph.lookUp
  have report : ∀ g' (found : Option Node), (∀ m, found = some m → Merged honest mode g' a b m) →
      Grows False memo.toUpkeep g'
        (if found.isSome = true then do
          GraphM.emit (.memoHit a.key b.key)
          pure found
        else pure found)
        fun g' found => ∀ m, found = some m → Merged honest mode g' a b m := by
    intro g' found h
    split
    · exact (emit _).bind fun g'' _ le _ => .pure fun m e => (h m e).mono le
    · exact .pure h
  refine (ask ha hb).bind fun g₁ found le h => ?_
  cases found with
  | some merged => exact (Grows.pure h).bind fun g₂ found' _ h' => report g₂ found' h'
  | none =>
    refine (ask (le b hb) (le a ha)).bind fun g₂ found' le' h' => report g₂ found' fun m e => ?_
    exact (h' m e).symm (le' b (le b hb)) (le' a (le a ha))

/-- What the memo does not know is computed, and the memo keeps it. -/
theorem memoized (ha : a ∈ g) (hb : b ∈ g) {compute : GraphM μ Node}
    (h : ∀ g', g ≤ g' → Grows False memo.toUpkeep g' compute (Merged honest mode · a b)) :
    Grows False memo.toUpkeep g (StackGraph.memoized a b compute) (Merged honest mode · a b) := by
  unfold StackGraph.memoized
  refine (lookUp ha hb).bind fun g₁ found le hf => ?_
  cases found with
  | some merged => exact .pure (hf merged rfl)
  | none =>
    refine (h g₁ le).bind fun g₂ merged le' hm => ?_
    have le₂ := Graph.le_trans le le'
    have stored : Grows False memo.toUpkeep g₂ (remember a b merged) fun _ _ => True :=
      (change fun t ht => memo.store ht (le₂ a ha) (le₂ b hb) hm).bind fun _ _ _ _ => emit _
    exact stored.bind fun g₃ _ le₃ _ => .pure (hm.mono le₃)

end Grows

end StackGraph
