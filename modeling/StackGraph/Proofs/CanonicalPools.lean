import StackGraph.Proofs.PoolSteps

/-!
# Pools that are filled by sharing

A pool starts empty and is filled by sharing nodes in it, on trails that are used with no other pool.
Then it is tended and closed, whatever else is done in the session.
So what becomes of a node consists of nodes of the pool, and the pool has one node for each structure
that was met.

* `Session.calls` -- what was shared in a pool during a run, and what became of it;
* `Command.KeepsTo` -- commands that fill a pool by sharing alone;
* `Session.Filled` -- the invariant; `Session.Filled.share` and `Session.Filled.step` are its steps
  and `Session.Filled.run` its runs;
* `Session.shared_pool_is_canonical` -- **closed, maximally shared, one node for each structure**.
-/

namespace StackGraph

open Node

variable {g g' : Graph}

/-! ## 1. Commands and pools -/

namespace Command

/-- What may be done while a pool is filled by sharing alone: the trails in the set are used with this
    pool and no others are, and the pool is neither cleared nor made anew, nor is anything else put
    in. -/
def KeepsTo (pool : String) (trails : Set String) (name : Option String) : Command → Prop
  | .share p trail _ => ∀ t, trail = some t → (p = pool ↔ t ∈ trails)
  | .intern p _ => p ≠ pool
  | .clearPool p => p ≠ pool
  | .newPool => name ≠ some pool
  | _ => True

variable {command : Command} {pool : String} {trails : Set String} {name : Option String}

/-- Only sharing in the pool changes it. -/
theorem KeepsTo.pool_ne (keeps : command.KeepsTo pool trails name)
    (other : ∀ trail node, command ≠ .share pool trail node) :
    (command.writes name).pool ≠ some pool := by
  intro h
  cases command with
  | newPool => exact keeps h
  | intern p n => exact keeps (Option.some.inj h)
  | clearPool p => exact keeps (Option.some.inj h)
  | share p trail n =>
    obtain rfl := Option.some.inj h
    exact other trail n rfl
  | _ => cases h

/-- The commands that may change a trail of the pool without sharing in the pool. -/
theorem KeepsTo.writes_trail (keeps : command.KeepsTo pool trails name)
    (other : ∀ trail node, command ≠ .share pool trail node) {t : String} (ht : t ∈ trails)
    (h : (command.writes name).trail = some t) :
    (command = .newTrail ∧ name = some t) ∨ command = .clearTrail t := by
  cases command with
  | share p trail n =>
    obtain rfl := (keeps t h).mpr ht
    exact absurd rfl (other trail n)
  | newTrail => exact .inl ⟨rfl, h⟩
  | clearTrail t' =>
    obtain rfl := Option.some.inj h
    exact .inr rfl
  | _ => cases h

end Command

namespace Session

variable {s : Session} {pool node : String} {trail name : Option String} {p : Pool} {n c : Node}
  {t : Trail}

/-! ## 2. Runs that fill a pool -/

/-- The node that a step shares in the pool, and what becomes of it. Other steps and steps that fail
    share nothing. -/
def callOf? (s : Session) (pool : String) (command : Command) (name : Option String) :
    Option (Node × Node) :=
  match command with
  | .share p _ node =>
    if p = pool then
      match s.table.nodes.find? node, (s.step command name).1 with
      | some n, .ok (.shared c _ _) => some (n, c)
      | _, _ => none
    else none
  | _ => none

/-- The nodes that are shared in the pool by a list of commands, each with what becomes of it. -/
def calls (pool : String) (s : Session) : List (Command × Option String) → List (Node × Node)
  | [] => []
  | c :: rest => (s.callOf? pool c.1 c.2).toList ++ calls pool (s.step c.1 c.2).2 rest

/-- The pool was filled by these calls: it is tended and closed, what became of a node stands for it
    and is settled, and every node of the pool has the structure of something that was met. -/
structure Filled (g : Graph) (pool : String) (trails : Set String) (s : Session) (p : Pool)
    (calls : List (Node × Node)) : Prop extends Tended g pool trails s p where
  closed : p.Closed
  served : ∀ c ∈ calls, c.1 ∈ g ∧ g.StandsFor c.1 c.2 ∧ p.Settled c.2
  origin : ∀ n ∈ p.nodes, ∃ c ∈ calls, c.1.tree.Reaches n.tree

namespace Filled

variable {s' : Session} {trails : Set String} {done : List (Node × Node)} {command : Command}

/-- A step over a larger graph that leaves the pool as it is. -/
theorem keep (h : Filled g pool trails s p done) (le : g ≤ g') (tended : Tended g' pool trails s' p) :
    Filled g' pool trails s' p done where
  toTended := tended
  closed := h.closed
  served c hc :=
    have ⟨mem, stands, settled⟩ := h.served c hc
    ⟨le _ mem, stands.mono le, settled⟩
  origin := h.origin

/-- Whatever else is done in the session leaves the pool as it is. -/
theorem other (h : Filled g pool trails s p done) (keeps : command.KeepsTo pool trails name)
    (other : ∀ trail node, command ≠ .share pool trail node) :
    ∃ g', Filled g' pool trails (s.step command name).2 p done := by
  obtain ⟨g', le, tended⟩ := h.toTended.other (keeps.pool_ne other) fun t ht => by
    by_cases written : (command.writes name).trail = some t
    · exact .inl (keeps.writes_trail other ht written)
    · exact .inr ⟨ht, written⟩
  exact ⟨g', h.keep le tended⟩

/-- **Sharing a node succeeds and fills the pool further.** -/
theorem share (h : Filled g pool trails s p done) (name : Option String)
    (hn : s.table.nodes.find? node = some n) (ht : s.table.trail? trail = some t)
    (own : ∀ name, trail = some name → name ∈ trails) :
    ∃ g' c p' size, (s.step (.share pool trail node) name).1 = .ok (.shared c p'.size size) ∧
      Filled g' pool trails (s.step (.share pool trail node) name).2 p' (done ++ [(n, c)]) := by
  obtain ⟨g', c, p', size, reply, le, tended, advance, stands, settled⟩ :=
    h.toTended.share name hn ht own
  refine ⟨g', c, p', size, reply, tended, advance.closed trivial h.closed, fun call hcall => ?_,
    fun m hm => ?_⟩
  · rcases List.mem_append.mp hcall with old | new
    · obtain ⟨mem, stands, settled⟩ := h.served call old
      exact ⟨le _ mem, stands.mono le, settled.mono advance.kept⟩
    · rw [List.mem_singleton.mp new]
      exact ⟨le n (h.covered.mem ⟨node, hn⟩), stands, settled⟩
  · rcases advance.new m hm with old | new
    · obtain ⟨call, hcall, r⟩ := h.origin m old
      exact ⟨call, List.mem_append_left _ hcall, r⟩
    · exact ⟨_, List.mem_append_right _ List.mem_cons_self, new.reaches⟩

/-- Sharing under names that are not all bound fails and leaves the pool as it is. -/
theorem share_unbound (h : Filled g pool trails s p done) (trail : Option String) (node : String)
    (name : Option String)
    (unbound : s.table.nodes.find? node = none ∨ s.table.trail? trail = none) :
    ∃ failure, (s.step (.share pool trail node) name).1 = .error failure ∧
      Filled g pool trails (s.step (.share pool trail node) name).2 p done := by
  obtain ⟨failure, failed, tended⟩ := h.toTended.share_unbound trail node name unbound
  exact ⟨failure, failed, h.keep g.le_refl tended⟩

/-- **Every step that keeps to the pool fills it with what it shares there.** -/
theorem step (h : Filled g pool trails s p done) (keeps : command.KeepsTo pool trails name) :
    ∃ g' p', Filled g' pool trails (s.step command name).2 p'
      (done ++ (s.callOf? pool command name).toList) := by
  by_cases shares : ∃ trail node, command = .share pool trail node
  · obtain ⟨trail, node, rfl⟩ := shares
    cases hn : s.table.nodes.find? node with
    | none =>
      obtain ⟨failure, failed, after⟩ := h.share_unbound trail node name (.inl hn)
      refine ⟨g, p, ?_⟩
      simpa [callOf?, hn] using after
    | some n =>
      cases ht : s.table.trail? trail with
      | none =>
        obtain ⟨failure, failed, after⟩ := h.share_unbound trail node name (.inr ht)
        refine ⟨g, p, ?_⟩
        simpa [callOf?, failed] using after
      | some t =>
        obtain ⟨g', c, p', size, done, after⟩ :=
          h.share name hn ht fun t e => (keeps t e).mp rfl
        refine ⟨g', p', ?_⟩
        simpa [callOf?, hn, done] using after
  · have other : ∀ trail node, command ≠ .share pool trail node :=
      fun trail node e => shares ⟨trail, node, e⟩
    obtain ⟨g', after⟩ := h.other keeps other
    have nothing : s.callOf? pool command name = none := by
      cases command with
      | share q trail node =>
        have ne : q ≠ pool := fun e => other trail node (e ▸ rfl)
        exact if_neg ne
      | _ => rfl
    rw [nothing]
    exact ⟨g', p, by simpa using after⟩

/-- **Every run that keeps to the pool fills it with what it shares there.** -/
theorem run (h : Filled g pool trails s p done) {commands : List (Command × Option String)}
    (keeps : ∀ c ∈ commands, c.1.KeepsTo pool trails c.2) :
    ∃ g' p', Filled g' pool trails (commands.foldl (fun s c => (s.step c.1 c.2).2) s) p'
      (done ++ calls pool s commands) := by
  induction commands generalizing g s p done with
  | nil => exact ⟨g, p, by simpa [calls] using h⟩
  | cons c rest ih =>
    obtain ⟨now, later⟩ := List.forall_mem_cons.mp keeps
    obtain ⟨g₁, p₁, h₁⟩ := h.step now
    obtain ⟨g₂, p₂, h₂⟩ := ih h₁ later
    refine ⟨g₂, p₂, ?_⟩
    rw [calls, ← List.append_assoc]
    exact h₂

/-! ## 3. What a filled pool holds -/

variable {call : Node × Node} {m : Node}

/-- What is reached from what became of a node is in the pool. -/
theorem mem_of_reaches (h : Filled g pool trails s p done) (hc : call ∈ done)
    (r : Reaches call.2 m) (bottom : m.isBottom = false) : m ∈ p.nodes := by
  obtain ⟨_, _, settled⟩ := h.served call hc
  refine (h.closed.settled_of_reaches settled r).resolve_left ?_
  simp [bottom]

/-- Whatever was met has its instance in the pool. -/
theorem exists_mem (h : Filled g pool trails s p done) (hc : call ∈ done) (r : Reaches call.1 m)
    (bottom : m.isBottom = false) : ∃ n ∈ p.nodes, n.tree = m.tree := by
  obtain ⟨_, ⟨_, e⟩, _⟩ := h.served call hc
  have r' : call.2.tree.Reaches m.tree := e ▸ tree_reaches_iff.mpr ⟨m, r, rfl⟩
  obtain ⟨n, r', e'⟩ := tree_reaches_iff.mp r'
  exact ⟨n, h.mem_of_reaches hc r' ((isBottom_eq_of_tree e').trans bottom), e'⟩

/-- Whatever is in the pool was met. -/
theorem exists_reached (h : Filled g pool trails s p done) {n : Node} (hn : n ∈ p.nodes) :
    ∃ call ∈ done, ∃ m, Reaches call.1 m ∧ m.tree = n.tree :=
  let ⟨call, hc, r⟩ := h.origin n hn
  ⟨call, hc, tree_reaches_iff.mp r⟩

/-- **The pool has as many nodes as different structures were met.** -/
theorem size_eq (h : Filled g pool trails s p done) :
    p.size = {t | ∃ call ∈ done, ∃ m, Reaches call.1 m ∧ m.isBottom = false ∧ m.tree = t}.ncard := by
  rw [h.canonical.size_eq]
  congr 1
  ext t
  constructor
  · rintro ⟨n, hn, rfl⟩
    obtain ⟨call, hc, m, r, e⟩ := h.exists_reached hn
    exact ⟨call, hc, m, r, (isBottom_eq_of_tree e).trans (h.canonical.no_bottom n hn), e⟩
  · rintro ⟨call, hc, m, r, bottom, rfl⟩
    exact h.exists_mem hc r bottom

end Filled

/-- **A pool that is filled by sharing is closed and shares as much as it can.** Let a pool start
    empty, and be used by nothing but sharing, on trails that are used with no other pool. Then
    sharing succeeds and gives an equal node; every node below such a node is the one that the pool
    has for it, so that equal ones are the same; and the pool has exactly one node for each structure
    below the nodes that were shared. -/
theorem shared_pool_is_canonical (first more : List (Command × Option String)) (pool : String)
    (trails : Set String)
    (fresh : (replay first).table.pools.find? pool = some .empty)
    (unused : ∀ t ∈ trails, ∀ x, (replay first).table.trails.find? t = some x → x = .empty)
    (keeps : ∀ c ∈ more, c.1.KeepsTo pool trails c.2) :
    ∃ p, (replay (first ++ more)).table.pools.find? pool = some p ∧
      (∀ call ∈ calls pool (replay first) more, (call.2 == call.1) = true) ∧
      (∀ call ∈ calls pool (replay first) more, ∀ m, Reaches call.2 m → m.isBottom = false →
        p.find? m = some m) ∧
      (∀ call ∈ calls pool (replay first) more, ∀ call' ∈ calls pool (replay first) more, ∀ m m',
        Reaches call.2 m → Reaches call'.2 m' → m.isBottom = false → (m == m') = true → m = m') ∧
      (∀ n ∈ p.nodes, n.isBottom = false ∧
        ∃ call ∈ calls pool (replay first) more, ∃ m, Reaches call.1 m ∧ (n == m) = true) ∧
      (∀ call ∈ calls pool (replay first) more, ∀ m, Reaches call.1 m → m.isBottom = false →
        ∃! n, n ∈ p.nodes ∧ (n == m) = true) ∧
      p.size = {t | ∃ call ∈ calls pool (replay first) more, ∃ m, Reaches call.1 m ∧
        m.isBottom = false ∧ m.tree = t}.ncard ∧
      ∀ trail node name n t, (replay (first ++ more)).table.nodes.find? node = some n →
        (replay (first ++ more)).table.trail? trail = some t →
        (∀ name, trail = some name → name ∈ trails) →
        ∃ c p' size after, (replay (first ++ more)).step (.share pool trail node) name =
            (.ok (.shared c p'.size size), after) ∧
          after.table.pools.find? pool = some p' ∧ (c == n) = true := by
  obtain ⟨g₀, hs⟩ := over_replay first
  have start : Filled g₀ pool trails (replay first) .empty [] :=
    { covered := hs
      found := fresh
      canonical := Pool.canonical_empty
      closed := Pool.closed_empty
      into := fun t ht x hx => unused t ht x hx ▸ Trail.into_empty
      served := fun _ hc => absurd hc List.not_mem_nil
      origin := fun _ hn => absurd hn List.not_mem_nil }
  obtain ⟨g, p, h⟩ := start.run keeps
  rw [show more.foldl (fun s c => (s.step c.1 c.2).2) (replay first) = replay (first ++ more) from
    List.foldl_append.symm, List.nil_append] at h
  have covered := h.covered.pool ⟨pool, h.found⟩
  refine ⟨p, h.found, fun call hc => ?_, fun call hc m r bottom => ?_,
    fun call hc call' hc' m m' r r' bottom e => ?_, fun n hn => ?_, fun call hc m r bottom => ?_,
    h.size_eq, fun trail node name n t hn ht own => ?_⟩
  · obtain ⟨mem, ⟨mem', e⟩, _⟩ := h.served call hc
    exact (Graph.beq_iff mem' mem).mpr e
  · exact h.canonical.find?_of_mem covered (h.mem_of_reaches hc r bottom)
  · have hm := h.mem_of_reaches hc r bottom
    obtain ⟨_, ⟨mem', _⟩, _⟩ := h.served call' hc'
    have trees := (Graph.beq_iff (covered m hm) (Graph.mem_of_reaches mem' r')).mp e
    have hm' := h.mem_of_reaches hc' r' ((isBottom_eq_of_tree trees).symm.trans bottom)
    exact h.canonical.eq_of_tree hm hm' trees
  · obtain ⟨call, hc, m, r, e⟩ := h.exists_reached hn
    obtain ⟨mem, _, _⟩ := h.served call hc
    exact ⟨h.canonical.no_bottom n hn, call, hc, m, r,
      (Graph.beq_iff (covered n hn) (Graph.mem_of_reaches mem r)).mpr e.symm⟩
  · obtain ⟨mem, _, _⟩ := h.served call hc
    have mem := Graph.mem_of_reaches mem r
    obtain ⟨n, hn, e⟩ := h.exists_mem hc r bottom
    refine ⟨n, ⟨hn, (Graph.beq_iff (covered n hn) mem).mpr e⟩, fun n' ⟨hn', e'⟩ => ?_⟩
    exact h.canonical.eq_of_tree hn' hn (((Graph.beq_iff (covered n' hn') mem).mp e').trans e.symm)
  · obtain ⟨g', c, p', size, reply, after⟩ := h.share name hn ht own
    obtain ⟨mem, ⟨mem', e⟩, _⟩ := after.served _ (List.mem_append_right _ List.mem_cons_self)
    exact ⟨c, p', size, _, Prod.ext reply rfl, after.found, (Graph.beq_iff mem' mem).mpr e⟩

/-- Three nodes are shared, two of them on a trail that is cleared afterwards. -/
def shared : List (Command × Option String) :=
  [(.share "pool" (some "trail") "b", some "first"), (.share "pool" (some "trail") "twin", none),
    (.clearTrail "trail", none), (.share "pool" none "c", some "c")]

theorem shared_pool_is_canonical_sample :
    (calls "pool" (replay sample) shared).length = 3 ∧
    ∃ p, (replay (sample ++ shared)).table.pools.find? "pool" = some p ∧ p.size = 4 ∧
      {t | ∃ call ∈ calls "pool" (replay sample) shared, ∃ m, Reaches call.1 m ∧
        m.isBottom = false ∧ m.tree = t}.ncard = 4 ∧
      ∀ call ∈ calls "pool" (replay sample) shared, (call.2 == call.1) = true ∧
        ∀ m, Reaches call.2 m → m.isBottom = false → p.find? m = some m := by
  have unused : ∀ t ∈ ({"trail"} : Set String), ∀ x,
      (replay sample).table.trails.find? t = some x → x = .empty := by
    intro t ht x found
    obtain rfl := Set.mem_singleton_iff.mp ht
    exact (Option.some.inj found).symm
  have keeps : ∀ c ∈ shared, c.1.KeepsTo "pool" {"trail"} c.2 := by
    have trail : ∀ t, some "trail" = some t → ("pool" = "pool" ↔ t ∈ ({"trail"} : Set String)) :=
      fun t e => iff_of_true rfl (Option.some.inj e).symm
    exact List.forall_mem_cons.mpr ⟨trail, List.forall_mem_cons.mpr ⟨trail,
      List.forall_mem_cons.mpr ⟨trivial, List.forall_mem_singleton.mpr fun _ e => nomatch e⟩⟩⟩
  obtain ⟨p, found, equal, closed, _, _, _, size, _⟩ :=
    shared_pool_is_canonical sample shared "pool" {"trail"} rfl unused keeps
  have four : ((replay (sample ++ shared)).table.pools.find? "pool").map Pool.size = some 4 := by
    decide +kernel
  rw [found] at four
  have four : p.size = 4 := Option.some.inj four
  exact ⟨by decide +kernel, p, found, four, size.symm.trans four,
    fun call hc => ⟨equal call hc, closed call hc⟩⟩

end Session

end StackGraph
