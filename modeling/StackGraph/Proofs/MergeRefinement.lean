import StackGraph.Proofs.Sessions

/-!
# The merge of nodes refines the merge of trees

What a merge of two nodes stands for is decided by their trees. Neither identities nor sharing in
the operands change the structure of the result: equal operands have equal merges, and operands that
were shared in a pool before are merged to what the merge of the operands is.

* `SharingNames` -- a pool and perhaps a trail, by name; `SessionM.canonical` shares a node there;
* `Grows.canonical` -- under names that are bound this never fails, and keeps the tree;
* `Session.merge_refines_tree_merge` -- **the refinement**.
-/

namespace StackGraph

/-! ## 1. Sharing by name -/

/-- The name of a pool and, where the trail is kept, of a trail. -/
structure SharingNames where
  pool : String
  trail : Option String

/-- Both names are bound. -/
structure SharingNames.Bound (names : SharingNames) (b : Bindings) : Prop where
  pool : (b.pools.find? names.pool).isSome
  trail : ∀ name, names.trail = some name → (b.trails.find? name).isSome

/-- Shares a node in a pool and on a trail, which are given by name. -/
def SessionM.canonical (names : SharingNames) (n : Node) : SessionM Node := do
  let p ← SessionM.pool names.pool
  let t ← match names.trail with
    | some name => SessionM.trail name
    | none => pure .empty
  SessionM.onPool names.pool p names.trail t (share n)

variable {g : Graph}

/-- Names of pools and trails that are bound in `old` stay bound. -/
def Bindings.upkeepNames (old : Bindings) : Upkeep Bindings where
  Holds g b := b.Over g ∧ ∀ names : SharingNames, names.Bound old → names.Bound b
  mono le h := ⟨Bindings.upkeep.mono le h.1, h.2⟩

theorem SharingNames.Bound.putSharing {names : SharingNames} {b : Bindings} (h : names.Bound b)
    (x : Sharing) (name : String) (trail : Option String) :
    names.Bound (b.putSharing x name trail) where
  pool := Table.isSome_find?_insert h.pool
  trail other e := by
    cases trail with
    | none => exact h.trail other e
    | some trail => exact Table.isSome_find?_insert (h.trail other e)

namespace Grows

/-- **Sharing under bound names never fails, and the result has the tree of the node.** -/
theorem canonical {old : Bindings} {names : SharingNames} (bound_names : names.Bound old) {n : Node}
    (hn : n ∈ g) :
    Grows False old.upkeepNames g (SessionM.canonical names n) fun g' c => g'.StandsFor n c := by
  have finish : ∀ g₁ p t, g ≤ g₁ → p.Over g₁ → t.Over g₁ → Grows False old.upkeepNames g₁
      (SessionM.onPool names.pool p names.trail t (StackGraph.share n))
      fun g' c => g'.StandsFor n c := by
    intro g₁ p t le hp ht
    have both : Sharing.Over g₁ ⟨p, t⟩ := ⟨hp, ht⟩
    exact within (fun _ _ => both)
      (fun _ _ x hx hb => ⟨hb.1.putSharing hx _ _, fun _ hold => (hb.2 _ hold).putSharing x _ _⟩)
      (share (le n hn))
  unfold SessionM.canonical
  have pool_bound :
      Grows False old.upkeepNames g (SessionM.pool names.pool) fun g' p => p.Over g' :=
    named (fun hb => .inr (hb.2 names bound_names).pool) fun hb => hb.1.pools.find?_value
  refine pool_bound.bind fun g₁ p le hp => ?_
  cases e : names.trail with
  | none =>
    rw [e] at finish
    exact (Grows.pure Trail.over_empty).bind fun g₂ t le' ht =>
      finish g₂ p t (Graph.le_trans le le') (hp.mono le') ht
  | some name =>
    rw [e] at finish
    have trail_bound : Grows False old.upkeepNames g₁ (SessionM.trail name) fun g' t => t.Over g' :=
      named (fun hb => .inr ((hb.2 names bound_names).trail name e))
        fun hb => hb.1.trails.find?_value
    exact trail_bound.bind fun g₂ t le' ht =>
      finish g₂ p t (Graph.le_trans le le') (hp.mono le') ht

end Grows

/-- The operands are shared first. -/
theorem Grows.mergeCanonical {old : Bindings} {x y : SharingNames} {mode : Mode} {a b : Node}
    (hx : x.Bound old) (hy : y.Bound old) (ha : a ∈ g) (hb : b ∈ g) :
    Grows False old.upkeepNames g
      (do
        SessionM.plain
          (StackGraph.merge mode (← SessionM.canonical x a) (← SessionM.canonical y b)))
      fun g' r => r ∈ g' ∧ r.tree = Tree.merge mode a.tree b.tree := by
  refine (canonical hx ha).bind fun g₁ a' le ⟨ha', ea⟩ => ?_
  refine (canonical hy (le b hb)).bind fun g₂ b' le' ⟨hb', eb⟩ => ?_
  rw [← ea, ← eb]
  exact mergePlain (le' a' ha') hb'

/-! ## 2. The refinement -/

namespace Session

variable {a b : Node}

/-- **The merge of nodes refines the merge of trees.** So equal operands have equal merges, and it
    makes no difference to the structure whether the operands or the result are shared in pools. -/
theorem merge_refines_tree_merge (commands : List (Command × Option String)) (mode : Mode)
    (ha : (replay commands).Holds a) (hb : (replay commands).Holds b) :
    ((replay commands).Yields (SessionM.plain (merge mode a b)) fun r =>
      r.tree = Tree.merge mode a.tree b.tree) ∧
    (∀ a' b', (replay commands).Holds a' → (replay commands).Holds b' → (a == a') = true →
      (b == b') = true →
      (replay commands).Agree (SessionM.plain (merge mode a b))
        (SessionM.plain (merge mode a' b'))) ∧
    (∀ x y z : SharingNames, x.Bound (replay commands).table → y.Bound (replay commands).table →
      z.Bound (replay commands).table →
      (replay commands).Agree
        (do SessionM.plain (merge mode (← SessionM.canonical x a) (← SessionM.canonical y b)))
        (SessionM.plain (merge mode a b)) ∧
      (replay commands).Agree
        (do SessionM.plain (merge mode (← SessionM.canonical x a) (← SessionM.canonical y b)))
        (do SessionM.canonical z (← SessionM.plain (merge mode a b)))) := by
  obtain ⟨g, hs⟩ := over_replay commands
  have ha := hs.mem ha
  have hb := hs.mem hb
  refine ⟨hs.yields hs.2 ((Grows.mergePlain ha hb).weaken fun _ _ _ h => h.2), ?_, ?_⟩
  · intro a' b' ha' hb' ea eb
    have ha' := hs.mem ha'
    have hb' := hs.mem hb'
    have ta := (Graph.beq_iff ha ha').mp ea
    have tb := (Graph.beq_iff hb hb').mp eb
    refine hs.agree hs.2 (Grows.mergePlain ha hb) fun g₁ le => ?_
    rw [ta, tb]
    exact Grows.mergePlain (le a' ha') (le b' hb')
  · intro x y z hx hy hz
    have kept : (replay commands).table.upkeepNames.Holds g (replay commands).table :=
      ⟨hs.2, fun _ h => h⟩
    refine ⟨hs.agree kept (Grows.mergeCanonical hx hy ha hb) fun g₁ le => ?_,
      hs.agree kept (Grows.mergeCanonical hx hy ha hb) fun g₁ le => ?_⟩
    · exact Grows.mergePlain (le a ha) (le b hb)
    · refine (Grows.mergePlain (le a ha) (le b hb)).bind fun g₂ r _ ⟨hr, er⟩ => ?_
      rw [← er]
      exact Grows.canonical hz hr

theorem merge_refines_tree_merge_sample :
    ∃ a b twin, (replay sample).Holds a ∧ (replay sample).Holds b ∧ (replay sample).Holds twin ∧
      ((replay sample).Yields (SessionM.plain (merge .exact a b)) fun r =>
        r.tree = Tree.merge .exact a.tree b.tree) ∧
      (replay sample).Agree (SessionM.plain (merge .exact a b))
        (SessionM.plain (merge .exact twin b)) ∧
      (replay sample).Agree
        (do SessionM.plain (merge .exact (← SessionM.canonical ⟨"pool", some "trail"⟩ a)
          (← SessionM.canonical ⟨"pool", none⟩ b)))
        (SessionM.plain (merge .exact a b)) := by
  refine ⟨_, _, _, ⟨"a", rfl⟩, ⟨"b", rfl⟩, ⟨"twin", rfl⟩, ?_⟩
  obtain ⟨refines, equal, shared⟩ :=
    merge_refines_tree_merge sample .exact ⟨"a", rfl⟩ ⟨"b", rfl⟩
  have both : SharingNames.Bound ⟨"pool", some "trail"⟩ (replay sample).table :=
    ⟨rfl, fun _ e => Option.some.inj e ▸ rfl⟩
  have alone : SharingNames.Bound ⟨"pool", none⟩ (replay sample).table :=
    ⟨rfl, fun _ e => nomatch e⟩
  exact ⟨refines, equal _ _ ⟨"twin", rfl⟩ ⟨"b", rfl⟩ (by decide +kernel) (by decide +kernel),
    (shared _ _ _ both alone both).1⟩

end Session

end StackGraph
