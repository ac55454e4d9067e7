import StackGraph.Proofs.PoolSteps

/-!
# Misused trails

A trail says what became of a node without asking the pool. Nothing keeps it to one pool: it may be
used with several pools in turn, and with a pool that was cleared meanwhile. Then nodes of one pool
come into another one, and below nodes that are rebuilt there, and from there onto further trails. All
of them have the structure of the nodes that they stand for, since every step of every trail leads to
an equal node, and this is kept for all pools and trails at once.

* `Session.Over.share_beq`, `Session.Over.intern_beq`, `Session.Over.lookUp_beq` -- what the steps on
  pools give;
* `Session.sharing_preserves_structure` -- **in every session, with any pool and any trail**.
-/

namespace StackGraph

open Node

namespace Session

variable {g : Graph} {s : Session} {pool node : String} {trail : Option String} {p : Pool}
  {n c : Node} {t : Trail}

/-- What stands for a node of the graph equals it. -/
theorem beq_of_standsFor (hn : n ∈ g) (h : g.StandsFor n c) : (c == n) = true :=
  (Graph.beq_iff h.1 hn).mpr h.2

/-- A node that is shared becomes an equal one. -/
theorem Over.share_beq (hs : s.Over g) (hp : s.table.pools.find? pool = some p)
    (ht : s.table.trail? trail = some t) (hn : s.table.nodes.find? node = some n)
    (name : Option String) :
    ∃ c size trailSize after,
      s.step (.share pool trail node) name = (.ok (.shared c size trailSize), after) ∧
        (c == n) = true := by
  obtain ⟨g', c, x, _, _, step, le, _, _, _, result⟩ := hs.share name hp hn ht False.elim
  exact ⟨c, _, _, _, step, beq_of_standsFor (le n (hs.mem ⟨node, hn⟩)) result.standsFor⟩

/-- A node that is put into a pool becomes an equal one. -/
theorem Over.intern_beq (hs : s.Over g) (hp : s.table.pools.find? pool = some p)
    (hn : s.table.nodes.find? node = some n) (name : Option String) :
    ∃ c size after, s.step (.intern pool node) name = (.ok (.interned c size), after) ∧
      (c == n) = true := by
  have mem := hs.mem ⟨node, hn⟩
  obtain ⟨journal, step⟩ := step_intern name hp hn
  exact ⟨_, _, _, step, beq_of_standsFor mem ((hs.pool ⟨pool, hp⟩).intern mem).1⟩

/-- A node that is found in a pool equals the one that was looked for. -/
theorem Over.lookUp_beq (hs : s.Over g) (hp : s.table.pools.find? pool = some p)
    (hn : s.table.nodes.find? node = some n) (name : Option String) :
    ∃ found, (s.step (.lookUp pool node) name).1 = .ok (.node found) ∧
      ∀ c, found = some c → (c == n) = true := by
  have mem := hs.mem ⟨node, hn⟩
  exact ⟨_, step_lookUp name hp hn,
    fun c found => beq_of_standsFor mem ((hs.pool ⟨pool, hp⟩).find? mem found)⟩

/-- **Sharing preserves structure even where trails are misused.** After any commands, whichever
    trails were used with whichever pools, and whatever was cleared, the following holds of all pools
    and trails: to share a node in the pool on the trail succeeds and gives an equal node, to put a
    node into the pool succeeds and gives an equal node, to look a node up gives an equal node or
    none, and what a trail says became of a node equals it. -/
theorem sharing_preserves_structure (commands : List (Command × Option String)) :
    (∀ pool trail node p t n name, (replay commands).table.pools.find? pool = some p →
      (replay commands).table.trail? trail = some t →
      (replay commands).table.nodes.find? node = some n →
      ∃ c size trailSize after,
        (replay commands).step (.share pool trail node) name =
          (.ok (.shared c size trailSize), after) ∧ (c == n) = true) ∧
    (∀ pool node p n name, (replay commands).table.pools.find? pool = some p →
      (replay commands).table.nodes.find? node = some n →
      (∃ c size after,
        (replay commands).step (.intern pool node) name = (.ok (.interned c size), after) ∧
          (c == n) = true) ∧
      ∃ found, ((replay commands).step (.lookUp pool node) name).1 = .ok (.node found) ∧
        ∀ c, found = some c → (c == n) = true) ∧
    ∀ name t, (replay commands).table.trails.find? name = some t →
      ∀ step ∈ t.steps, (step.2 == step.1) = true := by
  obtain ⟨g, hs⟩ := over_replay commands
  refine ⟨fun pool trail node p t n name hp ht hn => hs.share_beq hp ht hn name,
    fun pool node p n name hp hn => ⟨hs.intern_beq hp hn name, hs.lookUp_beq hp hn name⟩,
    fun name t ht step hstep => ?_⟩
  obtain ⟨mem, stands⟩ := hs.2.trails.find?_value ht step hstep
  exact beq_of_standsFor mem stands

/-- A trail is used with a pool that is cleared afterwards, and then with another one. -/
def misused : List (Command × Option String) :=
  [(.newPool, some "other"), (.share "pool" (some "trail") "a", none), (.clearPool "pool", none),
    (.share "other" (some "trail") "b", none), (.intern "pool" "twin", none)]

/-- The trail answers for a node that the pool does not have. -/
theorem sharing_preserves_structure_misused :
    ∃ n c size trailSize after, (replay (sample ++ misused)).table.nodes.find? "b" = some n ∧
      (replay (sample ++ misused)).step (.share "pool" (some "trail") "b") none =
        (.ok (.shared c size trailSize), after) ∧
      (after.table.pools.find? "pool").map Pool.size = some 1 ∧ (c == n) = true := by
  have bound : ((replay (sample ++ misused)).table.pools.find? "pool").isSome ∧
      ((replay (sample ++ misused)).table.trails.find? "trail").isSome ∧
      ((replay (sample ++ misused)).table.nodes.find? "b").isSome := by decide +kernel
  obtain ⟨p, hp⟩ := Option.isSome_iff_exists.mp bound.1
  obtain ⟨t, ht⟩ := Option.isSome_iff_exists.mp bound.2.1
  obtain ⟨n, hn⟩ := Option.isSome_iff_exists.mp bound.2.2
  obtain ⟨c, size, trailSize, after, step, equal⟩ :=
    (sharing_preserves_structure (sample ++ misused)).1 "pool" (some "trail") "b" p t n none hp ht hn
  have one : (((replay (sample ++ misused)).step (.share "pool" (some "trail") "b") none).2.table.pools
      |>.find? "pool").map Pool.size = some 1 := by decide +kernel
  rw [step] at one
  exact ⟨n, c, size, trailSize, after, hn, step, one, equal⟩

end Session

end StackGraph
