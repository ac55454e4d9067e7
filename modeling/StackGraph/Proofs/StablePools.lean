import StackGraph.Proofs.PoolSteps

/-!
# Pools keep their instances

A pool that starts empty is filled by putting nodes in one by one and by sharing them with all that
lies below, in any order. Trails come and go: a trail is the pool's own from when it is new or cleared
until it is used with another pool, and the pool is used with its own trails only. As long as it is
neither cleared nor made anew, it has one node for each structure that came in, and this node is what
it gives for the structure from then on.

* `Command.Uses`, `Command.ownTrails` -- what may be done while a pool is in use, and which trails
  are its own afterwards;
* `Session.puts` -- what was put into the pool, and what became of it;
* `Session.entered` -- the structures that came in: those of nodes that were put in, and for nodes
  that were shared, those reached before any that the pool had;
* `Session.PoolStep`, `Session.Tended.step` -- the three things that a step may do to a pool in use;
* `Session.Stocked` -- the invariant, kept by every step (`Session.Stocked.step`) and by every run
  (`Session.Stocked.run`);
* `Session.pool_instances_are_stable` -- **one instance for each structure, for ever**.
-/

namespace StackGraph

open Node

variable {g g' : Graph}

/-! ## 1. Commands and pools -/

namespace Command

/-- What may be done while the pool is in use and the trails of the set are its own. -/
def Uses (pool : String) (own : Set String) (name : Option String) : Command → Prop
  | .share p trail _ => p = pool → ∀ t, trail = some t → t ∈ own
  | .clearPool p => p ≠ pool
  | .newPool => name ≠ some pool
  | _ => True

/-- The trails that are the pool's own after a command, when those of the set were before. -/
def ownTrails (pool : String) (own : Set String) (name : Option String) : Command → Set String
  | .share p trail _ => {t | t ∈ own ∧ (p = pool ∨ trail ≠ some t)}
  | .newTrail => {t | t ∈ own ∨ name = some t}
  | .clearTrail trail => {t | t ∈ own ∨ trail = t}
  | _ => own

/-- The name of the node that a command puts into the pool, by itself or with what lies below. -/
def puts? (pool : String) : Command → Option String
  | .intern p node => if p = pool then some node else none
  | .share p _ node => if p = pool then some node else none
  | _ => none

variable {command : Command} {pool : String} {own : Set String} {name : Option String}

/-- Nothing but putting nodes in changes the pool. -/
theorem Uses.pool_ne (uses : command.Uses pool own name) (other : command.puts? pool = none) :
    (command.writes name).pool ≠ some pool := by
  intro h
  cases command with
  | newPool => exact uses h
  | clearPool p => exact uses (Option.some.inj h)
  | intern p node => exact nomatch (if_pos (Option.some.inj h)).symm.trans other
  | share p trail node => exact nomatch (if_pos (Option.some.inj h)).symm.trans other
  | _ => cases h

/-- A trail of the pool after a command that puts nothing into the pool is new or cleared, or it was
    one before and the command did not write to it. -/
theorem mem_ownTrails (other : command.puts? pool = none) {t : String}
    (ht : t ∈ command.ownTrails pool own name) :
    ((command = .newTrail ∧ name = some t) ∨ command = .clearTrail t) ∨
      (t ∈ own ∧ (command.writes name).trail ≠ some t) := by
  cases command with
  | share p trail node =>
    obtain ⟨ht, same | unwritten⟩ := ht
    · exact nomatch (if_pos same).symm.trans other
    · exact .inr ⟨ht, unwritten⟩
  | newTrail =>
    by_cases new : name = some t
    · exact .inl (.inl ⟨rfl, new⟩)
    · exact .inr ⟨ht.resolve_right new, new⟩
  | clearTrail trail =>
    by_cases cleared : trail = t
    · exact .inl (.inr (congrArg _ cleared))
    · exact .inr ⟨ht.resolve_right cleared, fun e => cleared (Option.some.inj e)⟩
  | _ => exact .inr ⟨ht, nofun⟩

/-- The commands that put a node into the pool. -/
theorem eq_of_puts? {node : String} (h : command.puts? pool = some node) :
    command = .intern pool node ∨ ∃ trail, command = .share pool trail node := by
  cases command with
  | intern p n =>
    obtain ⟨rfl, e⟩ := Option.ite_none_right_eq_some.mp h
    exact .inl (congrArg _ (Option.some.inj e))
  | share p trail n =>
    obtain ⟨rfl, e⟩ := Option.ite_none_right_eq_some.mp h
    exact .inr ⟨trail, congrArg _ (Option.some.inj e)⟩
  | _ => cases h

end Command

namespace Session

variable {s s' : Session} {pool node : String} {trail name : Option String} {p p' : Pool}
  {n c r : Node} {t : Trail} {own : Set String} {known : Set Tree} {done : List (Node × Node)}
  {command : Command}

/-- Each command of the list may be done while the pool is in use with the trails that it then
    has. -/
def Uses (pool : String) : Set String → List (Command × Option String) → Prop
  | _, [] => True
  | own, c :: rest => c.1.Uses pool own c.2 ∧ Uses pool (c.1.ownTrails pool own c.2) rest

/-- The trails that are the pool's own after a list of commands. -/
def ownTrails (pool : String) : Set String → List (Command × Option String) → Set String
  | own, [] => own
  | own, c :: rest => ownTrails pool (c.1.ownTrails pool own c.2) rest

/-- The node that a step puts into the pool, and what becomes of it. Other steps and steps that fail
    put nothing in. -/
def putOf? (s : Session) (pool : String) (command : Command) (name : Option String) :
    Option (Node × Node) := do
  let node ← command.puts? pool
  let n ← s.table.nodes.find? node
  let reply ← (s.step command name).1.toOption
  let c ← reply.node?
  return (n, c)

/-- The nodes that are put into the pool by a list of commands, each with what becomes of it. -/
def puts (pool : String) (s : Session) : List (Command × Option String) → List (Node × Node)
  | [] => []
  | c :: rest => (s.putOf? pool c.1 c.2).toList ++ puts pool (s.step c.1 c.2).2 rest

/-- The structures that a command brings into the pool when it has those that are known. Nothing is
    brought in under a name that is not bound. -/
def entering (s : Session) (pool : String) (known : Set Tree) : Command → Set Tree
  | .intern p node =>
    {u | p = pool ∧ u ≠ .bottom ∧ ∃ n, s.table.nodes.find? node = some n ∧ n.tree = u}
  | .share p trail node =>
    {u | p = pool ∧ (s.table.trail? trail).isSome = true ∧
      ∃ n, s.table.nodes.find? node = some n ∧ n.tree.ReachesNew known u}
  | _ => ∅

/-- The structures that the pool has after a list of commands, when it has those that are known
    before. -/
def entered (pool : String) (s : Session) (known : Set Tree) :
    List (Command × Option String) → Set Tree
  | [] => known
  | c :: rest => entered pool (s.step c.1 c.2).2 (known ∪ s.entering pool known c.1) rest

/-- The node `r` is what the session gives for every node equal to `x`, when it is looked up in the
    pool, put into it, or shared in it on one of the trails. -/
def Answers (s : Session) (pool : String) (own : Set String) (x r : Node) : Prop :=
  ∀ node n, s.table.nodes.find? node = some n → (n == x) = true → ∀ name,
    (s.step (.lookUp pool node) name).1 = .ok (.node (some r)) ∧
    (∃ size, (s.step (.intern pool node) name).1 = .ok (.interned r size)) ∧
    ∀ trail t, s.table.trail? trail = some t → (∀ name, trail = some name → name ∈ own) →
      ∃ size trailSize, (s.step (.share pool trail node) name).1 = .ok (.shared r size trailSize)

theorem entering_of_other (other : command.puts? pool = none) :
    s.entering pool known command = ∅ := by
  cases command with
  | intern p node =>
    refine Set.eq_empty_iff_forall_notMem.mpr fun u ⟨same, _⟩ => ?_
    exact nomatch (if_pos same).symm.trans other
  | share p trail node =>
    refine Set.eq_empty_iff_forall_notMem.mpr fun u ⟨same, _⟩ => ?_
    exact nomatch (if_pos same).symm.trans other
  | _ => rfl

theorem putOf?_of_other (other : command.puts? pool = none) : s.putOf? pool command name = none := by
  unfold putOf?
  rw [other]
  rfl

/-! ## 2. What a tended pool gives -/

namespace Tended

/-- A structure that the pool has is found. -/
theorem find?_eq (h : Tended g pool own s p) (hn : n ∈ g) (hr : r ∈ p.nodes) (e : n.tree = r.tree) :
    p.find? n = some r := by
  rw [h.over_pool.find?_congr hn (h.over_pool r hr) e]
  exact h.canonical.find?_of_mem h.over_pool hr

/-- **A node of the pool is what the session gives for its structure.** -/
theorem answers (h : Tended g pool own s p) {x : Node} (hx : x ∈ g) (hr : r ∈ p.nodes)
    (e : x.tree = r.tree) : s.Answers pool own x r := by
  intro node n hn equal name
  have mem : n ∈ g := h.covered.mem ⟨node, hn⟩
  have e : n.tree = r.tree := ((Graph.beq_iff mem hx).mp equal).trans e
  have found := h.find?_eq mem hr e
  refine ⟨?_, ?_, fun trail t ht own => ?_⟩
  · rw [step_lookUp name h.found hn, found]
  · have bottom : n.isBottom = false := (isBottom_eq_of_tree e).trans (h.canonical.no_bottom r hr)
    have put := (h.intern name hn).1
    rw [Pool.intern_of_find?_eq_some bottom found] at put
    exact ⟨_, put⟩
  · obtain ⟨g', c, p', size, reply, _, tended, advance, stands, settled⟩ := h.share name hn ht own
    have hr' := advance.kept r hr
    have ec : c.tree = r.tree := stands.2.trans e
    have hc := settled.resolve_left (by
      rw [isBottom_eq_of_tree ec, tended.canonical.no_bottom r hr']
      exact Bool.false_ne_true)
    rw [tended.canonical.eq_of_tree hc hr' ec] at reply
    exact ⟨_, _, reply⟩

/-- No two nodes of the pool are equal. -/
theorem pairwise_ne (h : Tended g pool own s p) :
    p.nodes.Pairwise fun m n => (m == n) = false := by
  refine (List.pairwise_map.mp h.canonical.distinct).imp_of_mem fun hm hn ne => ?_
  refine Bool.eq_false_iff.mpr fun equal => ne ?_
  exact (Graph.beq_iff (h.over_pool _ hm) (h.over_pool _ hn)).mp equal

/-- **Looking up gives nothing exactly when the pool does not have the structure.** -/
theorem lookUp_none_iff (h : Tended g pool own s p) (hn : s.table.nodes.find? node = some n)
    (name : Option String) :
    (s.step (.lookUp pool node) name).1 = .ok (.node none) ↔ n.tree ∉ p.trees := by
  rw [step_lookUp name h.found hn, ← h.over_pool.find?_eq_none_iff (h.covered.mem ⟨node, hn⟩)]
  constructor
  · exact fun e => Reply.node.inj (Except.ok.inj e)
  · exact fun e => congrArg (Except.ok ∘ Reply.node) e

end Tended

/-! ## 3. Steps and runs -/

/-- What a step does to a pool in use: nothing, or it puts in a node by itself, or one with what lies
    below it. -/
inductive PoolStep (s : Session) (pool : String) (p : Pool) (command : Command)
    (name : Option String) (g' : Graph) : Pool → Prop where
  | idle (none_put : s.putOf? pool command name = none)
    (nothing : ∀ known, s.entering pool known command = ∅) : PoolStep s pool p command name g' p
  | interned {node : String} {n : Node} (e : command = .intern pool node)
    (hn : s.table.nodes.find? node = some n)
    (put : s.putOf? pool command name = some (n, (p.intern n).1))
    (enters : ∀ known, s.entering pool known command = {u | n.tree = u ∧ u ≠ .bottom}) :
    PoolStep s pool p command name g' (p.intern n).2
  | shared {trail : Option String} {node : String} {n c : Node} {p' : Pool}
    (e : command = .share pool trail node) (hn : s.table.nodes.find? node = some n)
    (put : s.putOf? pool command name = some (n, c))
    (enters : ∀ known, s.entering pool known command = {u | n.tree.ReachesNew known u})
    (advance : p.Advance True (n.tree.ReachesNew p.trees) p') (stands : g'.StandsFor n c)
    (settled : p'.Settled c) : PoolStep s pool p command name g' p'

namespace Tended

theorem step_intern (h : Tended g pool own s p) (node : String) (name : Option String) :
    ∃ p', Tended g pool own (s.step (.intern pool node) name).2 p' ∧
      PoolStep s pool p (.intern pool node) name g p' := by
  have puts : (Command.intern pool node).puts? pool = some node := if_pos rfl
  cases hn : s.table.nodes.find? node with
  | none =>
    refine ⟨p, (h.intern_unbound name hn).2, .idle (by simp [putOf?, puts, hn]) fun known => ?_⟩
    simp [entering, hn]
  | some n =>
    obtain ⟨replied, tended⟩ := h.intern name hn
    refine ⟨_, tended, .interned rfl hn ?_ fun known => ?_⟩
    · simp [putOf?, puts, hn, replied, Except.toOption, Reply.node?]
    · ext u
      simp [entering, hn, and_comm]

theorem step_share (h : Tended g pool own s p) (trail : Option String) (node : String)
    (name : Option String) (uses : ∀ t, trail = some t → t ∈ own) :
    ∃ g' p', g ≤ g' ∧ Tended g' pool own (s.step (.share pool trail node) name).2 p' ∧
      PoolStep s pool p (.share pool trail node) name g' p' := by
  have puts : (Command.share pool trail node).puts? pool = some node := if_pos rfl
  cases hn : s.table.nodes.find? node with
  | none =>
    obtain ⟨_, _, tended⟩ := h.share_unbound trail node name (.inl hn)
    refine ⟨g, p, g.le_refl, tended, .idle (by simp [putOf?, puts, hn]) fun known => ?_⟩
    simp [entering, hn]
  | some n =>
    cases ht : s.table.trail? trail with
    | none =>
      obtain ⟨_, failed, tended⟩ := h.share_unbound trail node name (.inr ht)
      refine ⟨g, p, g.le_refl, tended, .idle ?_ fun known => by simp [entering, ht]⟩
      simp [putOf?, puts, failed, Except.toOption]
    | some t =>
      obtain ⟨g', c, p', size, replied, le, tended, advance, stands, settled⟩ :=
        h.share name hn ht uses
      refine ⟨g', p', le, tended, .shared rfl hn ?_ (fun known => ?_) advance stands settled⟩
      · simp [putOf?, puts, hn, replied, Except.toOption, Reply.node?]
      · simp [entering, hn, ht]

/-- **A step does one of three things to a pool in use**, and the pool stays tended. -/
theorem step (h : Tended g pool own s p) (uses : command.Uses pool own name) :
    ∃ g' p', g ≤ g' ∧
      Tended g' pool (command.ownTrails pool own name) (s.step command name).2 p' ∧
      PoolStep s pool p command name g' p' := by
  cases puts : command.puts? pool with
  | none =>
    obtain ⟨g', le, tended⟩ := h.other (uses.pool_ne puts) fun t ht => Command.mem_ownTrails puts ht
    exact ⟨g', p, le, tended, .idle (putOf?_of_other puts) fun _ => entering_of_other puts⟩
  | some node =>
    rcases Command.eq_of_puts? puts with rfl | ⟨trail, rfl⟩
    · obtain ⟨p', tended, step⟩ := h.step_intern node name
      exact ⟨g, p', g.le_refl, tended, step⟩
    · have own_eq : (Command.share pool trail node).ownTrails pool own name = own := by
        ext t
        simp [Command.ownTrails]
      rw [own_eq]
      exact h.step_share trail node name (uses rfl)

end Tended

theorem PoolStep.kept (h : PoolStep s pool p command name g' p') : p ≤ p' := by
  cases h with
  | idle => exact p.le_refl
  | interned => exact p.le_intern _
  | shared _ _ _ _ advance => exact advance.kept

/-- The pool is tended, it has these structures, and what became of the nodes that were put in stands
    for them and is settled. -/
structure Stocked (g : Graph) (pool : String) (own : Set String) (s : Session) (p : Pool)
    (known : Set Tree) (done : List (Node × Node)) : Prop extends Tended g pool own s p where
  trees_eq : p.trees = known
  served : ∀ put ∈ done, put.1 ∈ g ∧ g.StandsFor put.1 put.2 ∧ p.Settled put.2

namespace Stocked

/-- What became of the nodes that were put in is as before over a larger graph and in a larger
    pool. -/
theorem served_mono (h : Stocked g pool own s p known done) (le : g ≤ g') (kept : p ≤ p') :
    ∀ put ∈ done, put.1 ∈ g' ∧ g'.StandsFor put.1 put.2 ∧ p'.Settled put.2 := fun put hput =>
  have ⟨mem, stands, settled⟩ := h.served put hput
  ⟨le _ mem, stands.mono le, settled.mono kept⟩

/-- **A step keeps what the pool has, and brings in what enters.** -/
theorem step (h : Stocked g pool own s p known done) (uses : command.Uses pool own name) :
    ∃ g' p', p ≤ p' ∧ Stocked g' pool (command.ownTrails pool own name) (s.step command name).2 p'
      (known ∪ s.entering pool known command) (done ++ (s.putOf? pool command name).toList) := by
  obtain ⟨g', p', le, tended, step⟩ := h.toTended.step uses
  have old := h.served_mono le step.kept
  refine ⟨g', p', step.kept, tended, ?_, ?_⟩
  · cases step with
    | idle _ nothing => rw [nothing, Set.union_empty, h.trees_eq]
    | interned _ hn _ enters =>
      rw [enters, h.over_pool.trees_intern (h.covered.mem ⟨_, hn⟩), h.trees_eq]
    | shared _ _ _ enters advance stands settled =>
      rw [enters, advance.trees_eq trivial settled stands.2, h.trees_eq]
  · cases step with
    | idle none_put =>
      rw [none_put, Option.toList_none, List.append_nil]
      exact old
    | interned _ hn put =>
      have mem := h.covered.mem ⟨_, hn⟩
      rw [put]
      refine List.forall_mem_append.mpr ⟨old, List.forall_mem_singleton.mpr ?_⟩
      exact ⟨le _ mem, (h.over_pool.intern mem).1.mono le, p.settled_intern _⟩
    | shared _ hn put _ _ stands settled =>
      rw [put]
      refine List.forall_mem_append.mpr ⟨old, List.forall_mem_singleton.mpr ?_⟩
      exact ⟨le _ (h.covered.mem ⟨_, hn⟩), stands, settled⟩

/-- **A run keeps what the pool has, and brings in what enters at each of its steps.** -/
theorem run (h : Stocked g pool own s p known done) {commands : List (Command × Option String)}
    (uses : Uses pool own commands) :
    ∃ g' p', p ≤ p' ∧ Stocked g' pool (ownTrails pool own commands)
      (commands.foldl (fun s c => (s.step c.1 c.2).2) s) p' (entered pool s known commands)
      (done ++ puts pool s commands) := by
  induction commands generalizing g s p own known done with
  | nil => exact ⟨g, p, p.le_refl, by simpa [puts, ownTrails, entered] using h⟩
  | cons c rest ih =>
    obtain ⟨now, later⟩ := uses
    obtain ⟨g₁, p₁, le₁, h₁⟩ := h.step now
    obtain ⟨g₂, p₂, le₂, h₂⟩ := ih h₁ later
    refine ⟨g₂, p₂, Pool.le_trans le₁ le₂, ?_⟩
    rw [puts, ← List.append_assoc]
    exact h₂

end Stocked

theorem uses_append {more later : List (Command × Option String)} :
    Uses pool own (more ++ later) ↔ Uses pool own more ∧ Uses pool (ownTrails pool own more) later := by
  induction more generalizing own with
  | nil => exact (true_and _).symm.to_iff
  | cons c rest ih => exact (and_congr_right fun _ => ih).trans and_assoc.symm

theorem ownTrails_append (more later : List (Command × Option String)) :
    ownTrails pool own (more ++ later) = ownTrails pool (ownTrails pool own more) later := by
  induction more generalizing own with
  | nil => rfl
  | cons c rest ih => exact ih

/-! ## 4. The pool of a session -/

/-- **A pool keeps one instance of each structure that came in.** Let a pool start empty, and let it
    be used with trails of its own until it is cleared. Then it holds no bottom and no two equal nodes,
    and as many nodes as structures came in; a node is found in it exactly when its structure came in;
    and what became of a node that was put in, like everything else in the pool, stays there and is
    what the session gives for every equal node from then on. -/
theorem pool_instances_are_stable (first more later : List (Command × Option String)) (pool : String)
    (own : Set String)
    (fresh : (replay first).table.pools.find? pool = some .empty)
    (unused : ∀ t ∈ own, ∀ x, (replay first).table.trails.find? t = some x → x = .empty)
    (uses : Uses pool own (more ++ later)) :
    ∃ p p', (replay (first ++ more)).table.pools.find? pool = some p ∧
      (replay (first ++ more ++ later)).table.pools.find? pool = some p' ∧
      (∀ n ∈ p.nodes, n.isBottom = false) ∧
      (p.nodes.Pairwise fun m n => (m == n) = false) ∧
      p.size = (entered pool (replay first) ∅ more).ncard ∧
      (∀ node n name, (replay (first ++ more)).table.nodes.find? node = some n →
        (((replay (first ++ more)).step (.lookUp pool node) name).1 = .ok (.node none) ↔
          n.tree ∉ entered pool (replay first) ∅ more)) ∧
      (∀ put ∈ puts pool (replay first) more, put.1.isBottom = false →
        put.2 ∈ p.nodes ∧ (put.2 == put.1) = true ∧
        (replay (first ++ more ++ later)).Answers pool (ownTrails pool own (more ++ later))
          put.1 put.2) ∧
      ∀ r ∈ p.nodes, r ∈ p'.nodes ∧
        (replay (first ++ more ++ later)).Answers pool (ownTrails pool own (more ++ later)) r r := by
  obtain ⟨g₀, hs⟩ := over_replay first
  have start : Stocked g₀ pool own (replay first) .empty ∅ [] :=
    { covered := hs
      found := fresh
      canonical := Pool.canonical_empty
      into := fun t ht x hx => unused t ht x hx ▸ Trail.into_empty
      trees_eq := Pool.trees_empty
      served := fun _ h => absurd h List.not_mem_nil }
  obtain ⟨uses, uses'⟩ := uses_append.mp uses
  obtain ⟨g, p, _, h⟩ := start.run uses
  rw [show more.foldl (fun s c => (s.step c.1 c.2).2) (replay first) = replay (first ++ more) from
    List.foldl_append.symm, List.nil_append] at h
  obtain ⟨g', p', kept, h'⟩ := h.run uses'
  rw [show later.foldl (fun s c => (s.step c.1 c.2).2) (replay (first ++ more)) =
    replay (first ++ more ++ later) from List.foldl_append.symm, ← ownTrails_append] at h'
  refine ⟨p, p', h.found, h'.found, h.canonical.no_bottom, h.pairwise_ne, ?_,
    fun node n name hn => ?_, fun put hput bottom => ?_, fun r hr => ⟨kept r hr, ?_⟩⟩
  · rw [h.canonical.size_eq, h.trees_eq]
  · rw [h.lookUp_none_iff hn, h.trees_eq]
  · obtain ⟨mem, ⟨hc, e⟩, settled⟩ := h.served put hput
    obtain ⟨mem', _, _⟩ := h'.served put (List.mem_append_left _ hput)
    have hr := settled.resolve_left (by
      rw [isBottom_eq_of_tree e, bottom]
      exact Bool.false_ne_true)
    exact ⟨hr, (Graph.beq_iff hc mem).mpr e, h'.answers mem' (kept _ hr) e.symm⟩
  · exact h'.answers (h'.over_pool r (kept r hr)) (kept r hr) rfl

/-- A copy is put in, and a node that holds another copy is shared on a new trail. -/
def stocking : List (Command × Option String) :=
  [(.intern "pool" "twin", some "kept"), (.newTrail, some "path"),
    (.share "pool" (some "path") "b", none)]

/-- The other trail is cleared, and one more node is shared. -/
def restocking : List (Command × Option String) :=
  [(.clearTrail "trail", none), (.share "pool" (some "path") "c", none)]

theorem pool_instances_are_stable_sample :
    (entered "pool" (replay sample) ∅ stocking).ncard = 3 ∧
    ∃ twin p p', (replay sample).Holds twin ∧
      (replay (sample ++ stocking)).table.pools.find? "pool" = some p ∧ p.size = 3 ∧
      (replay (sample ++ stocking ++ restocking)).table.pools.find? "pool" = some p' ∧
      p'.size = 4 ∧ twin ∈ p'.nodes ∧
      ((replay (sample ++ stocking ++ restocking)).step (.lookUp "pool" "a") none).1 =
        .ok (.node (some twin)) := by
  have uses : Uses "pool" ∅ (stocking ++ restocking) :=
    ⟨trivial, trivial, fun _ t e => .inr e, trivial, fun _ t e => .inl ⟨.inr e, .inl rfl⟩, trivial⟩
  obtain ⟨p, p', found, found', _, _, size, _, puts, instances⟩ :=
    pool_instances_are_stable sample stocking restocking "pool" ∅ rfl
      (fun _ h => absurd h (Set.notMem_empty _)) uses
  have three : ((replay (sample ++ stocking)).table.pools.find? "pool").map Pool.size = some 3 := by
    decide +kernel
  have four : ((replay (sample ++ stocking ++ restocking)).table.pools.find? "pool").map Pool.size =
      some 4 := by
    decide +kernel
  rw [found] at three
  rw [found'] at four
  have three : p.size = 3 := Option.some.inj three
  obtain ⟨twin, named, put⟩ : ∃ twin, (replay sample).table.nodes.find? "twin" = some twin ∧
      (replay sample).putOf? "pool" (.intern "pool" "twin") (some "kept") = some (twin, twin) :=
    ⟨_, rfl, rfl⟩
  have equal : (((replay (sample ++ stocking ++ restocking)).table.nodes.find? "a").bind fun a =>
      ((replay sample).table.nodes.find? "twin").map fun twin => a == twin && !twin.isBottom) =
        some true := by
    decide +kernel
  rw [named] at equal
  obtain ⟨a, ha, equal⟩ := Option.bind_eq_some_iff.mp equal
  obtain ⟨equal, bottom⟩ := (Bool.and_eq_true_iff).mp (Option.some.inj equal)
  have first : (twin, twin) ∈ Session.puts "pool" (replay sample) stocking :=
    List.mem_append_left _ (by rw [put]; exact List.mem_singleton_self _)
  obtain ⟨mem, _, answers⟩ := puts _ first (by simpa using bottom)
  exact ⟨size.symm.trans three, twin, p, p', ⟨"twin", named⟩, found, three, found',
    Option.some.inj four, (instances _ mem).1, (answers "a" a ha equal none).1⟩

end Session

end StackGraph
