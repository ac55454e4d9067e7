import StackGraph.Proofs.CheckedMerging
import StackGraph.Proofs.CheckedSharing
import StackGraph.Proofs.FineSessions

/-!
# Merging and sharing never fail

Nodes are merged and shared without any failure, whatever memo is asked and whatever nodes the pool and
the trail hold, wrong ones included. This is so of the operations by index, which check every
assumption on their way, and so no such assumption is ever broken: no index is past the end, no list of
states and nodes is refused, and no place is reached that should not be.

* `Checked.merge_succeeds`, `Checked.share_succeeds` -- fine nodes, with the checks and without;
* `Session.Has` -- a node that a session keeps, or that lies below one;
* `Session.merging_and_sharing_never_fail` -- **the nodes of a session**.
-/

namespace StackGraph

open Node

variable {a b : Node}

/-! ## 1. Fine nodes -/

namespace Checked

/-- **No check of the merge fails**, with a memo that answers with fine nodes. -/
theorem merge_succeeds {μ : Type} [Memo μ] {fine : μ → Prop} (memo : FineMemo False fine)
    (mode : Mode) (ha : a.WellFormed) (hb : b.WellFormed) {x : Arena μ} (hx : fine x.table) :
    ∃ r x', Checked.merge mode a b x = .ok r x' ∧ StackGraph.merge mode a b x = .ok r x' := by
  have merges : Maintains False fine (StackGraph.merge mode a b) _ := .merge memo ha.fine hb.fine
  obtain ⟨r, x', run, _⟩ := merges.succeeds hx
  exact ⟨r, x', (congrFun (merge_eq ha hb) x).trans run, run⟩

/-- **No check of the sharing fails**, with a pool and a trail of fine nodes. -/
theorem share_succeeds (ha : a.WellFormed) {x : Arena Sharing} (hx : x.table.Fine False) :
    ∃ r x', Checked.share a x = .ok r x' ∧ StackGraph.share a x = .ok r x' := by
  have shares : Maintains False (Sharing.Fine False) (StackGraph.share a) _ := .share ha.fine
  obtain ⟨r, x', run, _⟩ := shares.succeeds hx
  exact ⟨r, x', (congrFun (share_eq a) x).trans run, run⟩

end Checked

/-! ## 2. Sessions -/

namespace Session

variable {s : Session}

/-- The session keeps the node, or a node that it lies below. -/
def Has (s : Session) (a : Node) : Prop := ∃ n, s.Keeps n ∧ Reaches n a

theorem Keeps.has (h : s.Keeps a) : s.Has a := ⟨a, h, .refl a⟩

theorem Course.wellFormed (h : Course False s) (ha : s.Has a) : a.WellFormed :=
  let ⟨_, kept, r⟩ := ha
  fun m r' => (kept.fine h.fine).wellFormed m (r.trans r')

theorem Course.fine_of_has (h : Course False s) (ha : s.Has a) : a.Fine False :=
  (h.wellFormed ha).fine

/-- **Merging and sharing never fail**, nor does any check on their way. Two nodes of a session are
    merged with every memo that answers with well-formed nodes, whatever they are, and with every table
    of nodes of the session; a node of a session is shared with every pool and every trail of such
    nodes. -/
theorem merging_and_sharing_never_fail (h : Course False s) (ha : s.Has a) (hb : s.Has b) :
    (∀ {μ : Type} [Memo μ] {fine : μ → Prop}, FineMemo False fine →
      ∀ mode (x : Arena μ), fine x.table →
        ∃ r x', Checked.merge mode a b x = .ok r x' ∧ merge mode a b x = .ok r x') ∧
    (∀ mode (x : Arena MergeTable),
      (∀ e ∈ x.table.entries, s.Has e.1.1 ∧ s.Has e.1.2 ∧ s.Has e.2) →
        ∃ r x', Checked.merge mode a b x = .ok r x' ∧ merge mode a b x = .ok r x') ∧
    (∀ x : Arena Sharing, (∀ n ∈ x.table.pool.nodes, s.Has n) →
      (∀ step ∈ x.table.trail.steps, s.Has step.1 ∧ s.Has step.2) →
        ∃ r x', Checked.share a x = .ok r x' ∧ share a x = .ok r x') := by
  have wa := h.wellFormed ha
  have wb := h.wellFormed hb
  refine ⟨fun memo mode x hx => Checked.merge_succeeds memo mode wa wb hx, fun mode x hx => ?_,
    fun x pool trail => ?_⟩
  · have fine : MergeTable.Fine False x.table := fun e he =>
      have ⟨left, right, merged⟩ := hx e he
      ⟨⟨h.fine_of_has left, h.fine_of_has right⟩, h.fine_of_has merged⟩
    exact Checked.merge_succeeds FineMemo.table mode wa wb fine
  · have fine : x.table.Fine False :=
      ⟨fun n hn => h.fine_of_has (pool n hn), fun step hs =>
        ⟨h.fine_of_has (trail step hs).1, h.fine_of_has (trail step hs).2⟩⟩
    exact Checked.share_succeeds wa fine

/-- A session with a choice that has a node below the bottom state, a memo that was told a wrong merge,
    and a trail that led into a pool before the pool was cleared. -/
def mixed : List (Command × Option String) :=
  sample ++ [(.ofLists [5, State.bottom] [some "a", some "c"], some "odd"),
    (.newMemo, some "memo"), (.record "memo" "odd" "b" "c", none),
    (.share "pool" (some "trail") "odd", none), (.clearPool "pool", none),
    (.intern "pool" "twin", none)]

theorem merging_and_sharing_never_fail_mixed :
    ∃ a b m p t, (replay mixed).table.nodes.find? "odd" = some a ∧
      (∃ slot ∈ a.slots, slot.state = State.bottom ∧ slot.parent.isSome) ∧
      (replay mixed).table.nodes.find? "end" = some b ∧ b.isBottom = true ∧ b.id ≠ 0 ∧
      (replay mixed).table.memos.find? "memo" = some m ∧ m.size = 1 ∧
      (replay mixed).table.pools.find? "pool" = some p ∧ p.size = 1 ∧
      (replay mixed).table.trails.find? "trail" = some t ∧ t.size ≠ 0 ∧
      (∃ r x', Checked.merge .exact a b ⟨0, #[], Stubborn.mk b⟩ = .ok r x') ∧
      (∃ r x', Checked.merge .exact a b ⟨0, #[], m⟩ = .ok r x') ∧
      (∃ r x', Checked.share a ⟨0, #[], ⟨p, t⟩⟩ = .ok r x') := by
  have odd : ((replay mixed).table.nodes.find? "odd").map
      (·.slots.any fun slot => slot.state = State.bottom ∧ slot.parent.isSome) = some true := by
    decide +kernel
  have bottom : ((replay mixed).table.nodes.find? "end").map
      (fun n => n.isBottom && n.id ≠ 0) = some true := by
    decide +kernel
  have memo : ((replay mixed).table.memos.find? "memo").map (·.size) = some 1 := by
    decide +kernel
  have pool : ((replay mixed).table.pools.find? "pool").map (·.size) = some 1 := by
    decide +kernel
  have trail : ((replay mixed).table.trails.find? "trail").map (·.size != 0) = some true := by
    decide +kernel
  obtain ⟨a, ha, odd⟩ := Option.map_eq_some_iff.mp odd
  obtain ⟨b, hb, bottom⟩ := Option.map_eq_some_iff.mp bottom
  obtain ⟨m, hm, memo⟩ := Option.map_eq_some_iff.mp memo
  obtain ⟨p, hp, pool⟩ := Option.map_eq_some_iff.mp pool
  obtain ⟨t, ht, trail⟩ := Option.map_eq_some_iff.mp trail
  have course : Course False (replay mixed) := .of_replay fun pl => pl.elim
  have has : (replay mixed).Has b := Keeps.has (.node hb)
  obtain ⟨anyMemo, table, sharing⟩ :=
    merging_and_sharing_never_fail course (Keeps.has (.node ha)) has
  obtain ⟨r₁, x₁, run₁, _⟩ :=
    anyMemo FineMemo.stubborn .exact ⟨0, #[], ⟨b⟩⟩ (course.fine_of_has has)
  obtain ⟨r₂, x₂, run₂, _⟩ := table .exact ⟨0, #[], m⟩ fun e he =>
    ⟨Keeps.has (.memo hm he (.inl rfl)), Keeps.has (.memo hm he (.inr (.inl rfl))),
      Keeps.has (.memo hm he (.inr (.inr rfl)))⟩
  obtain ⟨r₃, x₃, run₃, _⟩ := sharing ⟨0, #[], ⟨p, t⟩⟩ (fun n hn => Keeps.has (.pool hp hn))
    fun step hs => ⟨Keeps.has (.trail ht hs (.inl rfl)), Keeps.has (.trail ht hs (.inr rfl))⟩
  refine ⟨a, b, m, p, t, ha, ?_, hb, ?_, ?_, hm, memo, hp, pool, ht, by simpa using trail,
    ⟨r₁, x₁, run₁⟩, ⟨r₂, x₂, run₂⟩, ⟨r₃, x₃, run₃⟩⟩
  · simpa using odd
  · simpa using (Bool.and_eq_true_iff.mp bottom).1
  · simpa using (Bool.and_eq_true_iff.mp bottom).2

end Session

end StackGraph
