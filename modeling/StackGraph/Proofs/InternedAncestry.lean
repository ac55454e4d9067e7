import StackGraph.Proofs.StablePools

/-!
# Below a node that was put in by itself

Sharing stops at a node whose structure the pool has. Where the pool was filled by sharing alone, all
below such a node is in the pool. A node that was put in by itself is taken as it is, and what lies
below it need not be in the pool. So what sharing gives is in the pool with all that lies below it,
except below nodes that were put in by themselves.

* `Session.interned` -- what became of the nodes that were put into a pool by themselves;
* `Session.Rooted` -- the invariant, kept by every step (`Session.Rooted.step`) and by every run
  (`Session.Rooted.run`);
* `Session.Rooted.settled_or_below` -- what is reached is in the pool, or lies below a node that was
  put in by itself;
* `Session.share_gives_pooled_above_interned` -- **sharing gives nodes of the pool, except below
  nodes that were put in by themselves**.
-/

namespace StackGraph

open Node

namespace Session

variable {g g' : Graph} {s s' : Session} {pool node : String} {name : Option String} {p p' : Pool}
  {m n c : Node} {own : Set String} {alone : List Node} {command : Command}

/-! ## 1. Nodes that are put in by themselves -/

/-- What becomes of the node that a step puts into the pool by itself. -/
def internOf? (s : Session) (pool : String) (command : Command) (name : Option String) :
    Option Node :=
  match command with
  | .intern _ _ => (s.putOf? pool command name).map Prod.snd
  | _ => none

/-- What becomes of the nodes that a list of commands puts into the pool by themselves. -/
def interned (pool : String) (s : Session) : List (Command × Option String) → List Node
  | [] => []
  | c :: rest => (s.internOf? pool c.1 c.2).toList ++ interned pool (s.step c.1 c.2).2 rest

/-- The pool is tended, and it has what lies below a node of it, unless the node was put in by
    itself. -/
structure Rooted (g : Graph) (pool : String) (own : Set String) (s : Session) (p : Pool)
    (alone : List Node) : Prop extends Tended g pool own s p where
  origin : ∀ n ∈ p.nodes, n ∈ alone ∨ ∀ q ∈ n.parents, p.Settled q

namespace Rooted

/-- The pool goes on by nodes that have what lies below them in it, or that were put in by
    themselves. -/
theorem goOn (h : Rooted g pool own s p alone) {own' : Set String} {more : List Node}
    (tended : Tended g' pool own' s' p') (kept : p ≤ p')
    (new : ∀ n ∈ p'.nodes, n ∈ p.nodes ∨ n ∈ more ∨ ∀ q ∈ n.parents, p'.Settled q) :
    Rooted g' pool own' s' p' (alone ++ more) where
  toTended := tended
  origin n hn := by
    rcases new n hn with old | fresh | settled
    · exact (h.origin n old).imp (List.mem_append_left more) fun all q hq => (all q hq).mono kept
    · exact .inl (List.mem_append_right alone fresh)
    · exact .inr settled

/-- **Every step keeps it so**, with the node that it puts in by itself. -/
theorem step (h : Rooted g pool own s p alone) (uses : command.Uses pool own name) :
    ∃ g' p', Rooted g' pool (command.ownTrails pool own name) (s.step command name).2 p'
      (alone ++ (s.internOf? pool command name).toList) := by
  obtain ⟨g', p', _, tended, step⟩ := h.toTended.step uses
  refine ⟨g', p', h.goOn tended step.kept fun m hm => ?_⟩
  cases step with
  | idle => exact .inl hm
  | @interned _ n e _ put =>
    have itself : s.internOf? pool command name = some (p.intern n).1 := by
      rw [e] at put ⊢
      simp [internOf?, put]
    exact (Pool.mem_or_new_of_mem_intern hm).imp_right fun ⟨same, new⟩ =>
      .inl (by simp [itself, same, new])
  | shared _ _ _ _ advance => exact (advance.settled trivial m hm).imp_right .inr

/-- **Every run keeps it so.** -/
theorem run (h : Rooted g pool own s p alone) {commands : List (Command × Option String)}
    (uses : Uses pool own commands) :
    ∃ g' p', Rooted g' pool (Session.ownTrails pool own commands)
      (commands.foldl (fun s c => (s.step c.1 c.2).2) s) p'
      (alone ++ interned pool s commands) := by
  induction commands generalizing g s p own alone with
  | nil => exact ⟨g, p, by simpa [interned, Session.ownTrails] using h⟩
  | cons c rest ih =>
    obtain ⟨now, later⟩ := uses
    obtain ⟨g₁, p₁, h₁⟩ := h.step now
    obtain ⟨g₂, p₂, h₂⟩ := ih h₁ later
    refine ⟨g₂, p₂, ?_⟩
    rw [interned, ← List.append_assoc]
    exact h₂

/-! ## 2. What is reached from a node of the pool -/

/-- **What is reached from a node of the pool is in the pool**, unless the way leads through a node
    that was put in by itself, to a node below it that is not in the pool. -/
theorem settled_or_below (h : Rooted g pool own s p alone) (hc : p.Settled c) (r : Reaches c m) :
    p.Settled m ∨ ∃ n ∈ alone, ∃ q ∈ n.parents, Reaches c n ∧ ¬ p.Settled q ∧ Reaches q m := by
  induction r with
  | refl c => exact .inl hc
  | @step c q m hq r ih =>
    -- the first node on the way with a parent that is missing was put in by itself
    by_cases settled : p.Settled q
    · refine (ih settled).imp_right fun ⟨n, hn, k, hk, way, rest⟩ => ?_
      exact ⟨n, hn, k, hk, .step hq way, rest⟩
    · have mem : c ∈ p.nodes := hc.resolve_left fun bottom => not_mem_parents_of_isBottom bottom hq
      have lone : c ∈ alone := (h.origin c mem).resolve_right fun all => settled (all q hq)
      exact .inr ⟨c, lone, q, hq, .refl c, settled, r⟩

end Rooted

/-- A node is settled in a tended pool when it is a bottom, or the pool gives the node itself for its
    structure. -/
theorem Tended.settled_iff (h : Tended g pool own s p) :
    p.Settled n ↔ n.isBottom = true ∨ p.find? n = some n :=
  or_congr_right ⟨h.canonical.find?_of_mem h.over_pool, Pool.mem_of_find?_eq_some⟩

/-- **Sharing gives nodes of the pool, except below nodes that were put in by themselves.** Let a pool
    start empty and be used with trails of its own. Then any node can be shared in it, and whatever is
    reached from what it becomes, bottoms apart, is the node that the pool has for its structure, or
    it is reached through a node that was put in by itself and from a node below this one that the
    pool does not have. So all of it is in the pool exactly when the pool has what lies below each of
    the nodes that were put in by themselves and are reached. -/
theorem share_gives_pooled_above_interned (first more : List (Command × Option String))
    (pool : String) (own : Set String)
    (fresh : (replay first).table.pools.find? pool = some .empty)
    (unused : ∀ t ∈ own, ∀ x, (replay first).table.trails.find? t = some x → x = .empty)
    (uses : Uses pool own more) :
    ∀ node n name, (replay (first ++ more)).table.nodes.find? node = some n →
      ∃ c p size after,
        (replay (first ++ more)).step (.share pool none node) name =
          (.ok (.shared c p.size size), after) ∧
        after.table.pools.find? pool = some p ∧
        (∀ m, Reaches c m → m.isBottom = false → p.find? m = some m ∨
          ∃ r ∈ interned pool (replay first) more, ∃ q ∈ r.parents, Reaches c r ∧
            q.isBottom = false ∧ p.find? q ≠ some q ∧ Reaches q m) ∧
        ((∀ m, Reaches c m → m.isBottom = false → p.find? m = some m) ↔
          ∀ r ∈ interned pool (replay first) more, Reaches c r → ∀ q ∈ r.parents,
            q.isBottom = false → p.find? q = some q) := by
  intro node n name hn
  obtain ⟨g₀, hs⟩ := over_replay first
  have start : Rooted g₀ pool own (replay first) .empty [] :=
    { covered := hs
      found := fresh
      canonical := Pool.canonical_empty
      into := fun t ht x hx => unused t ht x hx ▸ Trail.into_empty
      origin := fun _ hn => absurd hn List.not_mem_nil }
  obtain ⟨g, p, h⟩ := start.run uses
  rw [show more.foldl (fun s c => (s.step c.1 c.2).2) (replay first) = replay (first ++ more) from
    List.foldl_append.symm, List.nil_append] at h
  have newTrail : (replay (first ++ more)).table.trail? none = some .empty := rfl
  obtain ⟨g', c, p', size, reply, _, tended, advance, _, settled⟩ :=
    h.toTended.share name hn newTrail nofun
  have after : Rooted g' pool _ _ p' (_ ++ []) := h.goOn tended advance.kept fun m hm =>
    (advance.settled trivial m hm).imp_right .inr
  rw [List.append_nil] at after
  have reached (m) (r : Reaches c m) (bottom : m.isBottom = false) : p'.find? m = some m ∨
      ∃ r ∈ interned pool (replay first) more, ∃ q ∈ r.parents, Reaches c r ∧
        q.isBottom = false ∧ p'.find? q ≠ some q ∧ Reaches q m := by
    have := after.settled_or_below settled r
    simpa only [tended.settled_iff, bottom, Bool.false_eq_true, false_or, not_or,
      Bool.not_eq_true, and_assoc, ne_eq] using this
  refine ⟨c, p', size, _, Prod.ext reply rfl, after.found, reached, ?_, ?_⟩
  · exact fun all r _ way q hq bottom => all q (way.trans (.step hq (.refl q))) bottom
  · intro below m r bottom
    refine (reached m r bottom).resolve_right ?_
    rintro ⟨r, hr, q, hq, way, bottom', absent, _⟩
    exact absent (below r hr way q hq bottom')

/-- A frame over a bottom is put in by itself, and a frame over it is made. -/
def lone : List (Command × Option String) :=
  [(.intern "pool" "c", none), (.push "c" 9, some "over")]

theorem share_gives_pooled_above_interned_lone :
    (interned "pool" (replay sample) lone).length = 1 ∧
    ∃ (c : Node) (p : Pool) (size : Nat) (after : Session),
      (replay (sample ++ lone)).step (.share "pool" none "over") none =
        (.ok (.shared c p.size size), after) ∧ after.table.pools.find? "pool" = some p ∧
      ∀ m, Reaches c m → m.isBottom = false → p.find? m = some m := by
  have unused : ∀ t ∈ ({"trail"} : Set String), ∀ x,
      (replay sample).table.trails.find? t = some x → x = .empty := by
    rintro t rfl x found
    exact (Option.some.inj found).symm
  obtain ⟨c, p, size, after, step, found, _, all_iff⟩ :=
    share_gives_pooled_above_interned sample lone "pool" {"trail"} rfl unused
      ⟨trivial, trivial, trivial⟩ "over" _ none rfl
  have bottoms : ∀ r ∈ interned "pool" (replay sample) lone, ∀ q ∈ r.parents, q.isBottom = true := by
    decide +kernel
  refine ⟨by decide +kernel, c, p, size, after, step, found, all_iff.mpr ?_⟩
  intro r hr _ q hq bottom
  exact absurd (bottoms r hr q hq) (by simp [bottom])

/-- A chain of two frames is put in by itself. -/
def topOnly : List (Command × Option String) := [(.intern "pool" "a", none)]

/-- Sharing the chain gives it back, and the pool does not have the lower frame. -/
theorem lower_frame_not_pooled :
    (replay sample).table.pools.find? "pool" = some .empty ∧ Uses "pool" ∅ topOnly ∧
    ∃ c size trailSize after p m,
      (replay (sample ++ topOnly)).step (.share "pool" none "a") none =
        (.ok (.shared c size trailSize), after) ∧
      after.table.pools.find? "pool" = some p ∧ Reaches c m ∧ m.isBottom = false ∧
      p.find? m = none :=
  ⟨rfl, ⟨trivial, trivial⟩, _, _, _, _, _, _, rfl, rfl,
    .step List.mem_cons_self (.refl _), rfl, rfl⟩

end Session

end StackGraph
