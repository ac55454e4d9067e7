import StackGraph.Proofs.Sessions

/-!
# Equality in a session

Whatever was done in a session, two of its nodes are equal when they have the same tree. This does
not rest on keys: nodes of different trees may have equal keys, at the top and anywhere below, and
are told apart all the same. Nor do the ways in which a comparison stops early matter, at whichever
two nodes below it does so.

* `Session.beq_iff_tree_eq` -- **equality is equality of trees**, with what follows for the walk and
  for the laws of equality.
-/

namespace StackGraph

namespace Session

open Node

variable {a b : Node}

/-- **Two nodes of a session are equal when they have the same tree.** So the walk may stop early or
    go on, at any two nodes below and with any right memory of pairs; equality is an equivalence; and
    equal nodes have equal keys. -/
theorem beq_iff_tree_eq (commands : List (Command × Option String))
    (ha : (replay commands).Holds a) (hb : (replay commands).Holds b) :
    ((a == b) = true ↔ a.tree = b.tree) ∧
    (∀ m n known, Reaches a m → Reaches b n → a.Knows b known →
      (∀ verdict, verdict? m n known = some verdict → (verdict = true ↔ m.tree = n.tree)) ∧
      ((agree m n known).isSome = true ↔ m.tree = n.tree) ∧
      ∀ known', agree m n known = some known' → a.Knows b known') ∧
    (a == a) = true ∧ (a == b) = (b == a) ∧
    (∀ c, (replay commands).Holds c → (a == b) = true → (b == c) = true → (a == c) = true) ∧
    ((a == b) = true → a.key = b.key) := by
  obtain ⟨g, hs⟩ := over_replay commands
  have ha := hs.mem ha
  have hb := hs.mem hb
  refine ⟨Graph.beq_iff ha hb, fun m n known ra rb hk => ?_, beq_self a, Graph.beq_comm ha hb,
    fun c hc => Graph.beq_trans ha hb (hs.mem hc), Graph.key_eq_of_beq ha hb⟩
  have walk := Graph.decides_agree ha hb ra rb hk
  refine ⟨fun verdict => Graph.verdict_iff ha hb ra rb hk, walk.isSome_iff, fun known' e => ?_⟩
  rw [e] at walk
  exact walk.2

/-- A session with two nodes of different trees and one key. -/
def collision : List (Command × Option String) :=
  [(.push "$" 5, some "short"), (.chain "$" [7, 11029992427887847723], some "long")]

theorem beq_iff_tree_eq_collision :
    ∃ a b, (replay collision).Holds a ∧ (replay collision).Holds b ∧ a.key = b.key ∧
      a.tree ≠ b.tree ∧ ((a == b) = true ↔ a.tree = b.tree) ∧
      ((agree a b []).isSome = true ↔ a.tree = b.tree) ∧ (a == b) = false := by
  refine ⟨_, _, ⟨"short", rfl⟩, ⟨"long", rfl⟩, by decide +kernel, by decide +kernel, ?_⟩
  obtain ⟨trees, walks, _⟩ := beq_iff_tree_eq collision ⟨"short", rfl⟩ ⟨"long", rfl⟩
  refine ⟨trees, (walks _ _ _ (.refl _) (.refl _) (knows_nil _ _)).2.1, ?_⟩
  exact Bool.eq_false_iff.mpr fun e => absurd (trees.mp e) (by decide +kernel)

end Session

end StackGraph
