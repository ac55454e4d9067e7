import StackGraph.Proofs.Sessions

/-!
# Discovery is the recursive walk

The nodes below a node are found by a loop over a list of pending nodes. A node may be pending many
times over, and it is marked when it is taken from the list, not when it is put there. The pending
nodes are the calls of the recursive walk that are still to be made, in their order: so the loop
ends as the walk does, with the same list.

* `Node.Turns` -- a run of the loop, turn by turn, and `Node.exists_turns`: there always is one;
* `Node.Turns.appends` -- how many turns there are, and that found nodes stay found;
* `Node.Turns.eq_walkAll` -- **the pending nodes are suspended calls of the walk**;
* `Graph.mem_discover_iff`, `Node.nodup_discover` -- every node that can be reached, each once;
* `Session.discover_is_preorder` -- **the nodes of a session**.
-/

namespace StackGraph

namespace Node

variable {k : Nat} {m n : Node} {nodes pending found result : List Node}

/-! ## 1. The loop, turn by turn -/

/-- `Turns k pending found result`: with these nodes pending and found, the latest first, the loop
    ends after `k` more turns, and it ends with the list `result`. -/
inductive Turns : Nat → List Node → List Node → List Node → Prop where
  /-- Nothing is pending. -/
  | done (found : List Node) : Turns 0 [] found found.reverse
  /-- The first pending node was found before and is passed over. -/
  | pass {k : Nat} {n : Node} {pending found result : List Node} (known : n.isAmong found = true)
      (rest : Turns k pending found result) : Turns (k + 1) (n :: pending) found result
  /-- The first pending node is new, and what lies directly below it is pending in its place. -/
  | take {k : Nat} {n : Node} {pending found result : List Node} (new : n.isAmong found = false)
      (rest : Turns k (n.parents ++ pending) (n :: found) result) :
    Turns (k + 1) (n :: pending) found result

/-- **The loop ends**, and `discoverFrom` is what it ends with. -/
theorem exists_turns (pending found : List Node) :
    ∃ k, Turns k pending found (discoverFrom pending found) := by
  induction pending, found using discoverFrom.induct with
  | case1 found =>
    rw [discoverFrom]
    exact ⟨0, .done found⟩
  | case2 found n pending known ih =>
    obtain ⟨k, rest⟩ := ih
    rw [discoverFrom, if_pos known]
    exact ⟨k + 1, .pass known rest⟩
  | case3 found n pending new ih =>
    obtain ⟨k, rest⟩ := ih
    rw [discoverFrom, if_neg new]
    exact ⟨k + 1, .take (Bool.eq_false_iff.mpr new) rest⟩

/-- The loop can end in one way only. -/
theorem Turns.eq_discoverFrom (h : Turns k pending found result) :
    result = discoverFrom pending found := by
  induction h with
  | done found => rw [discoverFrom]
  | pass known _ ih => rw [discoverFrom, if_pos known, ih]
  | take new _ ih => rw [discoverFrom, if_neg (Bool.eq_false_iff.mp new), ih]

/-- The numbers of nodes directly below the nodes of a list, taken together. -/
def arity (nodes : List Node) : Nat := (nodes.map fun n => n.parents.length).sum

@[simp] theorem arity_nil : arity [] = 0 := rfl

@[simp] theorem arity_cons (n : Node) (nodes : List Node) :
    arity (n :: nodes) = n.parents.length + arity nodes := rfl

/-- **Found nodes stay found, and each node is looked below once**: there is a turn for each pending
    node, and one for each node directly below a node that was added. -/
theorem Turns.appends (h : Turns k pending found result) :
    ∃ new, result = found.reverse ++ new ∧ k = pending.length + arity new := by
  induction h with
  | done found => exact ⟨[], by simp⟩
  | pass known _ ih =>
    obtain ⟨new, e, count⟩ := ih
    refine ⟨new, e, ?_⟩
    simp
    omega
  | @take k n pending found result fresh _ ih =>
    obtain ⟨new, e, count⟩ := ih
    refine ⟨n :: new, by simp [e], ?_⟩
    simp at count ⊢
    omega

theorem Turns.mem_of_found (h : Turns k pending found result) (hm : m ∈ found) : m ∈ result := by
  obtain ⟨new, e, _⟩ := h.appends
  rw [e]
  exact List.mem_append_left new (List.mem_reverse.mpr hm)

/-- The loop over one node ends after one turn for the node itself and one for each slot below which
    there is a node, over all nodes that are found. -/
theorem turns_discover (n : Node) : Turns (1 + arity n.discover) [n] [] n.discover := by
  obtain ⟨k, turns⟩ := exists_turns [n] []
  obtain ⟨new, e, count⟩ := turns.appends
  have all : n.discover = new := e
  rw [all, ← show k = 1 + arity new from count, ← all]
  exact turns

/-! ## 2. The pending nodes are suspended calls -/

/-- The walks from several nodes, one after the other. -/
def walkAll (nodes found : List Node) : List Node := nodes.foldl (fun found n => walk n found) found

theorem walkAll_cons (n : Node) (nodes found : List Node) :
    walkAll (n :: nodes) found = walkAll nodes (walk n found) := rfl

theorem walkAll_append (xs ys found : List Node) :
    walkAll (xs ++ ys) found = walkAll ys (walkAll xs found) := List.foldl_append

theorem walkSlots_eq (slots : List (Slot Node)) (found : List Node) :
    walkSlots slots found = walkAll (Slot.parents slots) found := by
  induction slots generalizing found with
  | nil => rfl
  | cons s rest ih =>
    obtain ⟨state, parent⟩ := s
    cases parent with
    | none => exact ih found
    | some p => exact ih (walk p found)

/-- The walk visits a node and then walks from each node directly below it. -/
theorem walk_eq (n : Node) (found : List Node) :
    walk n found = visit n (walkAll n.parents) found := by
  cases n with
  | bottom i => rfl
  | frame i k state parent => rfl
  | choice i k slots =>
    rw [walk, funext (walkSlots_eq slots)]
    rfl

theorem isAmong_reverse (n : Node) (found : List Node) :
    n.isAmong found.reverse = n.isAmong found := List.any_reverse

/-- **The pending nodes are the calls of the walk that are still to be made.** -/
theorem Turns.eq_walkAll (h : Turns k pending found result) :
    result = walkAll pending found.reverse := by
  -- the walk adds at the end what the loop puts in front
  induction h with
  | done found => rfl
  | @pass k n pending found result known _ ih =>
    have passed : walk n found.reverse = found.reverse := by
      rw [walk_eq, visit, isAmong_reverse, if_pos known]
    rw [ih, walkAll_cons, passed]
  | @take k n pending found result new _ ih =>
    have visited : walk n found.reverse = walkAll n.parents (n :: found).reverse := by
      rw [walk_eq, visit, isAmong_reverse, if_neg (Bool.eq_false_iff.mp new), List.reverse_cons]
    rw [ih, walkAll_append, walkAll_cons, visited]

/-- **The loop finds the nodes in the order of the recursive walk.** -/
theorem discover_eq_preorder (n : Node) : n.discover = n.preorder := (turns_discover n).eq_walkAll

/-! ## 3. What is found -/

/-- What is found in the end was found before, or it can be reached from a pending node. -/
theorem Turns.mem (h : Turns k pending found result) (hm : m ∈ result) :
    m ∈ found ∨ ∃ n ∈ pending, Reaches n m := by
  induction h with
  | done found => exact .inl (List.mem_reverse.mp hm)
  | @pass k n pending found result known _ ih =>
    rcases ih hm with old | ⟨p, hp, r⟩
    · exact .inl old
    · exact .inr ⟨p, List.mem_cons_of_mem n hp, r⟩
  | @take k n pending found result new _ ih =>
    rcases ih hm with old | ⟨p, hp, r⟩
    · rcases List.mem_cons.mp old with rfl | old
      · exact .inr ⟨m, List.mem_cons_self, .refl m⟩
      · exact .inl old
    · rcases List.mem_append.mp hp with hp | hp
      · exact .inr ⟨n, List.mem_cons_self, .step hp r⟩
      · exact .inr ⟨p, List.mem_cons_of_mem n hp, r⟩

theorem reaches_of_mem_discover (h : m ∈ n.discover) : Reaches n m := by
  rcases (turns_discover n).mem h with old | ⟨p, hp, r⟩
  · exact absurd old List.not_mem_nil
  · rw [List.mem_singleton.mp hp] at r
    exact r

/-- No node is found twice. -/
theorem Turns.nodup (h : Turns k pending found result) (once : (found.map id).Nodup) :
    (result.map id).Nodup := by
  induction h with
  | done found =>
    rw [List.map_reverse]
    exact List.nodup_reverse.mpr once
  | pass _ _ ih => exact ih once
  | @take k n pending found result new _ ih =>
    refine ih (List.nodup_cons.mpr ⟨fun mem => ?_, once⟩)
    obtain ⟨m, hm, e⟩ := List.mem_map.mp mem
    have known : n.isAmong found = true := List.any_eq_true.mpr ⟨m, hm, same_iff.mpr e⟩
    rw [known] at new
    cases new

theorem nodup_discover (n : Node) : (n.discover.map id).Nodup :=
  (turns_discover n).nodup List.nodup_nil

/-- The node itself is found first. -/
theorem discover_eq_cons (n : Node) : ∃ rest, n.discover = n :: rest := by
  obtain ⟨k, turns⟩ := exists_turns [n] []
  cases turns with
  | pass known _ => cases known
  | take _ rest =>
    obtain ⟨new, e, _⟩ := rest.appends
    exact ⟨new, e⟩

/-- Reaching stays in a list that has what lies directly below each of its nodes. -/
theorem Reaches.mem_of_closed (closed : ∀ n ∈ nodes, ∀ p ∈ n.parents, p ∈ nodes)
    (r : Reaches n m) (hn : n ∈ nodes) : m ∈ nodes := by
  induction r with
  | refl n => exact hn
  | step hp _ ih => exact ih (closed _ hn _ hp)

/-! ## 4. Positions -/

theorem positionIn_lt_iff : n.positionIn nodes < nodes.length ↔ n.isAmong nodes = true := by
  simp [positionIn, isAmong, List.findIdx_lt_length]

/-- What stands at the position of a node is this very node. -/
theorem id_getElem_positionIn (h : n.positionIn nodes < nodes.length) :
    (nodes[n.positionIn nodes]).id = n.id :=
  same_iff.mp (List.findIdx_getElem (w := h))

end Node

/-! ## 5. Nodes of a graph -/

namespace Graph

open Node

variable {g : Graph} {k : Nat} {a m n : Node} {nodes pending found result : List Node}

/-- A node of a graph is among nodes of the graph when it is one of them. -/
theorem isAmong_iff (hn : n ∈ g) (hf : ∀ m ∈ found, m ∈ g) :
    n.isAmong found = true ↔ n ∈ found := by
  constructor
  · intro h
    obtain ⟨m, hm, same⟩ := List.any_eq_true.mp h
    rw [← eq_of_same (hf m hm) hn same]
    exact hm
  · exact fun h => List.any_eq_true.mpr ⟨n, h, same_refl n⟩

/-- **Nothing is left out**: the pending nodes are found in the end, and so is all that lies
    directly below what is found. -/
theorem turns_closed (h : Turns k pending found result) (hp : ∀ n ∈ pending, n ∈ g)
    (hf : ∀ n ∈ found, n ∈ g)
    (below : ∀ n ∈ found, ∀ p ∈ n.parents, p ∈ pending ∨ p ∈ found) :
    (∀ n ∈ pending, n ∈ result) ∧ ∀ n ∈ result, ∀ p ∈ n.parents, p ∈ result := by
  -- what lies below a found node is pending or found, so it is found once nothing is pending
  induction h with
  | done found =>
    refine ⟨fun n hn => absurd hn List.not_mem_nil, fun n hn p hp => ?_⟩
    have old := (below n (List.mem_reverse.mp hn) p hp).resolve_left List.not_mem_nil
    exact List.mem_reverse.mpr old
  | @pass k n pending found result known rest ih =>
    obtain ⟨hn, hp⟩ := List.forall_mem_cons.mp hp
    have old : n ∈ found := (isAmong_iff hn hf).mp known
    obtain ⟨all, closed⟩ := ih hp hf fun m hm p hmp => by
      rcases below m hm p hmp with mem | mem
      · rcases List.mem_cons.mp mem with rfl | mem
        · exact .inr old
        · exact .inl mem
      · exact .inr mem
    exact ⟨List.forall_mem_cons.mpr ⟨rest.mem_of_found old, all⟩, closed⟩
  | @take k n pending found result new rest ih =>
    obtain ⟨hn, hp⟩ := List.forall_mem_cons.mp hp
    have within : ∀ p ∈ n.parents ++ pending, p ∈ g :=
      List.forall_mem_append.mpr ⟨fun p h => parent_mem hn h, hp⟩
    obtain ⟨all, closed⟩ := ih within (List.forall_mem_cons.mpr ⟨hn, hf⟩) fun m hm p hmp => by
      rcases List.mem_cons.mp hm with rfl | hm
      · exact .inl (List.mem_append_left _ hmp)
      · rcases below m hm p hmp with mem | mem
        · rcases List.mem_cons.mp mem with rfl | mem
          · exact .inr List.mem_cons_self
          · exact .inl (List.mem_append_right _ mem)
        · exact .inr (List.mem_cons_of_mem _ mem)
    refine ⟨List.forall_mem_cons.mpr ⟨rest.mem_of_found List.mem_cons_self, fun m hm => ?_⟩, closed⟩
    exact all m (List.mem_append_right _ hm)

/-- **What is found is what can be reached.** -/
theorem mem_discover_iff (ha : a ∈ g) : m ∈ a.discover ↔ Reaches a m := by
  refine ⟨reaches_of_mem_discover, fun r => ?_⟩
  obtain ⟨top, closed⟩ := turns_closed (g := g) (turns_discover a)
    (List.forall_mem_singleton.mpr ha) (fun _ h => absurd h List.not_mem_nil)
    fun _ h => absurd h List.not_mem_nil
  exact r.mem_of_closed closed (top a List.mem_cons_self)

/-- At its position stands a node of the list. -/
theorem getElem_positionIn (hf : ∀ m ∈ nodes, m ∈ g) (hn : n ∈ nodes) :
    ∃ h : n.positionIn nodes < nodes.length, nodes[n.positionIn nodes] = n := by
  have lt := positionIn_lt_iff.mpr (List.any_eq_true.mpr ⟨n, hn, same_refl n⟩)
  exact ⟨lt, g.eq_of_id (hf _ (List.getElem_mem lt)) (hf n hn) (id_getElem_positionIn lt)⟩

end Graph

/-! ## 6. Nodes of a session -/

namespace Session

open Node

variable {n : Node}

/-- **The loop finds the nodes below a node of a session as the recursive walk does.** It ends,
    after one turn for the node and one for each slot with a node below, of all nodes that are found.
    The node itself is found first; a node is found exactly when it can be reached, and once; and
    nodes that are equal without being the same node are found apart. -/
theorem discover_is_preorder (commands : List (Command × Option String))
    (hn : (replay commands).Holds n) :
    Turns (1 + arity n.discover) [n] [] n.discover ∧ n.discover = n.preorder ∧
    n.discover.head? = some n ∧ (∀ m, m ∈ n.discover ↔ Reaches n m) ∧
    (n.discover.map Node.id).Nodup ∧
    ∀ a b, Reaches n a → Reaches n b → (a == b) = true → a.same b = false →
      a.positionIn n.discover < n.discover.length ∧ b.positionIn n.discover < n.discover.length ∧
      a.positionIn n.discover ≠ b.positionIn n.discover := by
  obtain ⟨g, hs⟩ := over_replay commands
  have hn := hs.mem hn
  have found : ∀ m, m ∈ n.discover ↔ Reaches n m := fun m => Graph.mem_discover_iff hn
  have inside : ∀ m ∈ n.discover, m ∈ g := fun m hm => Graph.mem_of_reaches hn ((found m).mp hm)
  obtain ⟨rest, first⟩ := discover_eq_cons n
  refine ⟨turns_discover n, discover_eq_preorder n, by rw [first]; rfl, found, nodup_discover n, ?_⟩
  intro a b ra rb _ apart
  obtain ⟨la, ea⟩ := Graph.getElem_positionIn inside ((found a).mpr ra)
  obtain ⟨lb, eb⟩ := Graph.getElem_positionIn inside ((found b).mpr rb)
  refine ⟨la, lb, fun same => ?_⟩
  have one : a = b := by
    rw [← ea, ← eb]
    simp only [same]
  rw [one, same_refl] at apart
  cases apart

/-- A session with a choice over equal nodes, over one node twice, and over both bottoms. -/
def twins : List (Command × Option String) :=
  [(.push "$" 1, some "left"), (.push "$" 1, some "right"), (.anotherBottom, some "end"),
    (.push "end" 2, some "low"), (.ofLists [3, 4, 5, 6, State.bottom]
      [some "left", some "right", some "left", some "low", some "$"], some "top")]

theorem discover_is_preorder_twins :
    ∃ n a b, (replay twins).Holds n ∧ Reaches n a ∧ Reaches n b ∧ (a == b) = true ∧
      a.same b = false ∧ n.discover = n.preorder ∧ Turns 9 [n] [] n.discover ∧
      n.discover.map Node.id = [5, 1, 0, 2, 4, 3] ∧
      a.positionIn n.discover ≠ b.positionIn n.discover := by
  refine ⟨_, _, _, ⟨"top", rfl⟩, .step (.head _) (.refl _), .step (.tail _ (.head _)) (.refl _),
    by decide +kernel, by decide, ?_⟩
  obtain ⟨turns, order, _, _, _, apart⟩ := discover_is_preorder twins ⟨"top", rfl⟩
  refine ⟨order, ?_, by rw [order]; rfl, ?_⟩
  · rw [order] at turns ⊢
    exact turns
  · exact (apart _ _ (.step (.head _) (.refl _)) (.step (.tail _ (.head _)) (.refl _))
      (by decide +kernel) (by decide)).2.2

end Session

end StackGraph
