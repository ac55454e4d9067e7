import StackGraph.Proofs.Sessions

/-!
# Steps on a pool

What one step of a session does to a pool that is canonical and whose trails lead into it. Sharing a
node and putting one in succeed where all names are bound, and keep the pool so; under names that are
not bound they change nothing. Any other step that does not write to the pool leaves it as it is.

* `Session.step_share`, `Session.step_intern` -- the steps that put nodes into a pool, as runs on the
  pool alone;
* `Session.Over.share` -- **sharing succeeds in every session**;
* `Session.Tended` -- a canonical pool with the trails that lead into it;
* `Session.Tended.share`, `Session.Tended.intern`, `Session.Tended.other` -- **the steps of a tended
  pool**;
* `Session.Tended.lookUp_reply` -- what is looked up is in the pool, or its structure is not.
-/

namespace StackGraph

open Node

variable {g g' : Graph}

/-! ## 1. Names of a step -/

namespace Bindings

variable {b : Bindings} {trail : Option String} {t : Trail}

/-- The trail that a command uses, which is empty where no name is given. -/
def trail? (b : Bindings) : Option String → Option Trail
  | none => some .empty
  | some name => b.trails.find? name

/-- What holds of an empty trail and of the trail of the name holds of the trail that is used. -/
theorem trail?_induction {motive : Trail → Prop} (h : b.trail? trail = some t)
    (empty : motive .empty)
    (named : ∀ name, trail = some name → b.trails.find? name = some t → motive t) : motive t := by
  cases trail with
  | none => exact Option.some.inj h ▸ empty
  | some name => exact named name rfl h

/-- A trail after a run on a pool is the one of the run, or what it was. -/
theorem find?_putSharing {x : Sharing} {pool name : String}
    (h : (b.putSharing x pool trail).trails.find? name = some t) :
    t = x.trail ∨ b.trails.find? name = some t := by
  cases trail with
  | none => exact .inr h
  | some used =>
    by_cases e : used = name
    · subst e
      exact .inl (Option.some.inj (h.symm.trans (Table.find?_insert_self b.trails used x.trail)))
    · refine .inr (Eq.trans ?_ h)
      exact (Table.find?_insert_of_ne b.trails (beq_eq_false_iff_ne.mpr e) x.trail).symm

end Bindings

/-! ## 2. Single steps -/

namespace SessionM

/-- The trail of a name, or an empty one. -/
def trailOr : Option String → SessionM Trail
  | none => pure .empty
  | some name => SessionM.trail name

/-- Shares a node in a pool, and tells the sizes of the pool and of the trail. -/
def shareNode (pool : String) (trail : Option String) (p : Pool) (t : Trail) (n : Node) :
    SessionM Reply := do
  let shared ← SessionM.onPool pool p trail t do
    let c ← share n
    return (c, (← GraphM.table).trail.size)
  return .shared shared.1 (← SessionM.pool pool).size shared.2

/-- A command that shares looks its names up and shares. -/
theorem run_share (pool node : String) (trail : Option String) :
    (Command.share pool trail node).run = (do
      let p ← SessionM.pool pool
      let n ← SessionM.node node
      let t ← SessionM.trailOr trail
      SessionM.shareNode pool trail p t n) := by
  cases trail <;> rfl

/-- A command that puts a node into a pool looks its names up and does it. -/
theorem run_intern (pool node : String) :
    (Command.intern pool node).run = (do
      let p ← SessionM.pool pool
      let n ← SessionM.node node
      let c ← SessionM.onPool pool p none .empty (StackGraph.intern n)
      return .interned c (← SessionM.pool pool).size) := rfl

theorem run_lookUp (pool node : String) :
    (Command.lookUp pool node).run = (do
      let p ← SessionM.pool pool
      return .node (p.find? (← SessionM.node node))) := rfl

variable {s : Session} {pool : String} {trail : Option String} {p : Pool} {n c : Node} {t : Trail}

theorem trailOr_run (h : s.table.trail? trail = some t) : trailOr trail s = .ok t s := by
  cases trail with
  | none => exact congrArg (EStateM.Result.ok · s) (Option.some.inj h)
  | some name => exact trail_run h

theorem shareNode_run {x : Sharing} {next : Nat} {journal : Array Event}
    (run : share n ⟨s.next, s.journal, ⟨p, t⟩⟩ = .ok c ⟨next, journal, x⟩) :
    shareNode pool trail p t n s = .ok (.shared c x.pool.size x.trail.size)
      ⟨next, journal, s.table.putSharing x pool trail⟩ := by
  have sized : (do
      let c ← share n
      return (c, (← GraphM.table).trail.size)) ⟨s.next, s.journal, ⟨p, t⟩⟩ =
        .ok (c, x.trail.size) ⟨next, journal, x⟩ := by
    rw [GraphM.bind_run_of_ok run]
    rfl
  have put : SessionM.onPool pool p trail t (do
      let c ← share n
      return (c, (← GraphM.table).trail.size)) s =
        .ok (c, x.trail.size) ⟨next, journal, s.table.putSharing x pool trail⟩ := by
    unfold SessionM.onPool GraphM.within
    rw [sized]
    rfl
  have kept : SessionM.pool pool ⟨next, journal, s.table.putSharing x pool trail⟩ =
      .ok x.pool ⟨next, journal, s.table.putSharing x pool trail⟩ :=
    pool_run (Table.find?_insert_self s.table.pools pool x.pool)
  unfold shareNode
  rw [GraphM.bind_run_of_ok put, GraphM.bind_run_of_ok kept]
  rfl

end SessionM

namespace Session

variable {s : Session} {pool node : String} {trail name : Option String} {p : Pool} {n c : Node}
  {t : Trail}

/-- **A step that shares a node**, where all names are bound. -/
theorem step_share {x : Sharing} {next : Nat} {journal : Array Event} (name : Option String)
    (hp : s.table.pools.find? pool = some p) (hn : s.table.nodes.find? node = some n)
    (ht : s.table.trail? trail = some t)
    (run : share n ⟨s.next, #[], ⟨p, t⟩⟩ = .ok c ⟨next, journal, x⟩) :
    s.step (.share pool trail node) name =
      (.ok (.shared c x.pool.size x.trail.size),
        bindNode ⟨next, journal, s.table.putSharing x pool trail⟩ name c) := by
  refine step_of_node ?_ rfl
  rw [SessionM.run_share, GraphM.bind_run_of_ok (SessionM.pool_run (s := s.ready) hp),
    GraphM.bind_run_of_ok (SessionM.node_run (s := s.ready) hn),
    GraphM.bind_run_of_ok (SessionM.trailOr_run (s := s.ready) ht)]
  exact SessionM.shareNode_run run

/-- A run on a pool and a trail of the session starts over the graph of the session. -/
theorem Over.sharing {tidy : Prop} (hs : s.Over g) (hp : s.table.pools.find? pool = some p)
    (ht : s.table.trail? trail = some t) (clean : tidy → Sharing.Tidy ⟨p, t⟩) :
    Sharing.At tidy g ⟨s.next, #[], ⟨p, t⟩⟩ := by
  refine ⟨hs.1, ⟨hs.pool ⟨pool, hp⟩, ?_⟩, clean⟩
  exact Bindings.trail?_induction ht Trail.over_empty fun name _ e => hs.2.trails.find?_value e

/-- **Sharing succeeds in every session**, and its result stands for the node, whatever the pool and
    the trail hold. If they are tidy, they stay so. -/
theorem Over.share {tidy : Prop} (hs : s.Over g) (name : Option String)
    (hp : s.table.pools.find? pool = some p) (hn : s.table.nodes.find? node = some n)
    (ht : s.table.trail? trail = some t) (clean : tidy → Sharing.Tidy ⟨p, t⟩) :
    ∃ g' c x next journal,
      s.step (.share pool trail node) name =
        (.ok (.shared c x.pool.size x.trail.size),
          Session.bindNode ⟨next, journal, s.table.putSharing x pool trail⟩ name c) ∧
      g ≤ g' ∧ (Session.bindNode ⟨next, journal, s.table.putSharing x pool trail⟩ name c).Over g' ∧
      (tidy → x.Tidy) ∧ p.Advance tidy (n.tree.ReachesNew p.trees) x.pool ∧
      Shares.Result tidy n g' x.pool c := by
  have shares : Shares tidy (n.tree.ReachesNew p.trees) g ⟨s.next, #[], ⟨p, t⟩⟩
      (StackGraph.share n) _ := Shares.share (hs.mem ⟨node, hn⟩) fun _ r => r
  obtain ⟨c, ⟨next, journal, x⟩, g', run, le, hx, advance, result⟩ :=
    shares (hs.sharing hp ht clean)
  refine ⟨g', c, x, next, journal, step_share name hp hn ht run, le, ?_, hx.tidy, advance, result⟩
  exact Over.bindNode ⟨hx.next, (Bindings.upkeep.mono le hs.2).putSharing hx.covered pool trail⟩
    result.standsFor.1

/-- A step that shares a node under names that are not all bound fails and changes nothing. -/
theorem step_share_unbound (name : Option String) (hp : s.table.pools.find? pool = some p)
    (h : s.table.nodes.find? node = none ∨ s.table.trail? trail = none) :
    ∃ failure, s.step (.share pool trail node) name = (.error failure, s.ready) := by
  cases hn : s.table.nodes.find? node with
  | none =>
    refine ⟨.unbound node, step_of_error ?_⟩
    rw [SessionM.run_share, GraphM.bind_run_of_ok (SessionM.pool_run (s := s.ready) hp)]
    exact GraphM.bind_run_of_error (SessionM.need_run_none Bindings.nodes (s := s.ready) hn) _
  | some n =>
    have ht := h.resolve_left (by simp [hn])
    cases trail with
    | none => cases ht
    | some trail =>
      refine ⟨.unbound trail, step_of_error ?_⟩
      rw [SessionM.run_share, GraphM.bind_run_of_ok (SessionM.pool_run (s := s.ready) hp),
        GraphM.bind_run_of_ok (SessionM.node_run (s := s.ready) hn)]
      exact GraphM.bind_run_of_error (SessionM.need_run_none Bindings.trails (s := s.ready) ht) _

/-- **A step that puts a node into a pool**, where both names are bound. -/
theorem step_intern (name : Option String) (hp : s.table.pools.find? pool = some p)
    (hn : s.table.nodes.find? node = some n) :
    ∃ journal, s.step (.intern pool node) name =
      (.ok (.interned (p.intern n).1 (p.intern n).2.size),
        bindNode ⟨s.next, journal, s.table.putSharing ⟨(p.intern n).2, .empty⟩ pool none⟩ name
          (p.intern n).1) := by
  obtain ⟨journal, run⟩ := Shares.intern_run n (⟨s.next, #[], ⟨p, .empty⟩⟩ : Arena Sharing)
  refine ⟨journal, step_of_node ?_ rfl⟩
  have put : SessionM.onPool pool p none .empty (StackGraph.intern n) s.ready =
      .ok (p.intern n).1
        ⟨s.next, journal, s.table.putSharing ⟨(p.intern n).2, .empty⟩ pool none⟩ := by
    unfold SessionM.onPool GraphM.within
    rw [show StackGraph.intern n ⟨s.ready.next, s.ready.journal, ⟨p, .empty⟩⟩ = _ from run]
    rfl
  rw [SessionM.run_intern, GraphM.bind_run_of_ok (SessionM.pool_run (s := s.ready) hp),
    GraphM.bind_run_of_ok (SessionM.node_run (s := s.ready) hn), GraphM.bind_run_of_ok put,
    GraphM.bind_run_of_ok (SessionM.pool_run (Table.find?_insert_self s.table.pools pool _))]
  rfl

/-- Nothing is put into a pool under a name that is not bound. -/
theorem step_intern_unbound (name : Option String) (hp : s.table.pools.find? pool = some p)
    (h : s.table.nodes.find? node = none) :
    s.step (.intern pool node) name = (.error (.unbound node), s.ready) := by
  refine step_of_error ?_
  rw [SessionM.run_intern, GraphM.bind_run_of_ok (SessionM.pool_run (s := s.ready) hp)]
  exact GraphM.bind_run_of_error (SessionM.need_run_none Bindings.nodes (s := s.ready) h) _

/-- A step that looks a node up tells what the pool has. -/
theorem step_lookUp (name : Option String) (hp : s.table.pools.find? pool = some p)
    (hn : s.table.nodes.find? node = some n) :
    (s.step (.lookUp pool node) name).1 = .ok (.node (p.find? n)) := by
  have run : (Command.lookUp pool node).run s.ready = .ok (.node (p.find? n)) s.ready := by
    rw [SessionM.run_lookUp, GraphM.bind_run_of_ok (SessionM.pool_run (s := s.ready) hp),
      GraphM.bind_run_of_ok (SessionM.node_run (s := s.ready) hn)]
    rfl
  rw [step_of_reply run]

/-- A trail that is new or cleared is empty. -/
theorem step_newTrail {t : String} {x : Trail}
    (found : (s.step .newTrail (some t)).2.table.trails.find? t = some x) : x = .empty :=
  Option.some.inj (found.symm.trans (Table.find?_insert_self _ t _))

theorem step_clearTrail {t : String} {x : Trail}
    (found : (s.step (.clearTrail t) name).2.table.trails.find? t = some x) : x = .empty := by
  unfold step perform Command.run SessionM.trail Table.need at found
  cases ht : s.table.trails.find? t with
  | none => simp [ht, bind, EStateM.bind, GraphM.lift] at found
  | some t' =>
    have found : (s.table.trails.insert t .empty).find? t = some x := by
      cases name <;> simpa [ht, bind, EStateM.bind, GraphM.lift, SessionM.putTrail,
        Reply.bindTo] using found
    exact Option.some.inj (found.symm.trans (Table.find?_insert_self _ t _))

/-- A step that begins with a pool that is not bound fails and changes nothing. -/
theorem step_pool_unbound {command : Command} {k : Pool → SessionM Reply}
    (run : command.run = SessionM.pool pool >>= k) (h : s.table.pools.find? pool = none)
    (name : Option String) : s.step command name = (.error (.unbound pool), s.ready) := by
  refine step_of_error ?_
  rw [run]
  exact GraphM.bind_run_of_error (SessionM.need_run_none Bindings.pools (s := s.ready) h) _

/-- A pool that is new or cleared is empty. -/
theorem step_newPool {x : Pool}
    (found : (s.step .newPool (some pool)).2.table.pools.find? pool = some x) : x = .empty :=
  Option.some.inj (found.symm.trans (Table.find?_insert_self _ pool _))

theorem step_clearPool {x : Pool}
    (found : (s.step (.clearPool pool) name).2.table.pools.find? pool = some x) : x = .empty := by
  have run : (Command.clearPool pool).run = SessionM.pool pool >>= fun _ => (do
      SessionM.putPool pool .empty
      return .done) := rfl
  cases hp : s.table.pools.find? pool with
  | none =>
    rw [step_pool_unbound run hp] at found
    exact nomatch hp.symm.trans found
  | some p =>
    have cleared : (Command.clearPool pool).run s.ready =
        .ok .done { s.ready with table := { s.table with pools := s.table.pools.insert pool .empty } } := by
      rw [run, GraphM.bind_run_of_ok (SessionM.pool_run (s := s.ready) hp)]
      rfl
    have kept : (s.table.pools.insert pool .empty).find? pool = some x := by
      rw [step_of_reply cleared] at found
      cases name <;> exact found
    exact Option.some.inj (kept.symm.trans (Table.find?_insert_self _ pool _))

/-! ## 3. Tended pools -/

/-- The pool is canonical, and the trails of the set lead into it. -/
structure Tended (g : Graph) (pool : String) (trails : Set String) (s : Session) (p : Pool) :
    Prop where
  covered : s.Over g
  found : s.table.pools.find? pool = some p
  canonical : p.Canonical
  into : ∀ t ∈ trails, ∀ x, s.table.trails.find? t = some x → x.Into p

namespace Tended

variable {s' : Session} {trails trails' : Set String} {command : Command}

theorem over_pool (h : Tended g pool trails s p) : p.Over g := h.covered.pool ⟨pool, h.found⟩

/-- A step that does not use the pool, and leads to trails that are empty or were such before. -/
theorem keep (h : Tended g pool trails s p) (covered : s'.Over g')
    (found : s'.table.pools.find? pool = some p)
    (into : ∀ t ∈ trails', ∀ x, s'.table.trails.find? t = some x →
      x = .empty ∨ (t ∈ trails ∧ s.table.trails.find? t = some x)) :
    Tended g' pool trails' s' p where
  covered := covered
  found := found
  canonical := h.canonical
  into t ht x hx := by
    rcases into t ht x hx with rfl | ⟨ht, hx⟩
    · exact Trail.into_empty
    · exact h.into t ht x hx

/-- **A step that does not write to the pool leaves it as it is.** The trails lead into it that did
    before and are not written to, and those that are new or cleared. -/
theorem other (h : Tended g pool trails s p) (pool_ne : (command.writes name).pool ≠ some pool)
    (into : ∀ t ∈ trails', ((command = .newTrail ∧ name = some t) ∨ command = .clearTrail t) ∨
      (t ∈ trails ∧ (command.writes name).trail ≠ some t)) :
    ∃ g', g ≤ g' ∧ Tended g' pool trails' (s.step command name).2 p := by
  obtain ⟨g', le, covered, but⟩ := over_step h.covered command name
  refine ⟨g', le, h.keep covered ((but.pools pool pool_ne).trans h.found) fun t ht x hx => ?_⟩
  rcases into t ht with (⟨rfl, rfl⟩ | rfl) | ⟨ht, unwritten⟩
  · exact .inl (step_newTrail hx)
  · exact .inl (step_clearTrail hx)
  · exact .inr ⟨ht, (but.trails t unwritten).symm.trans hx⟩

/-- **Sharing a node succeeds.** The pool goes on by what is reached from the node before anything
    that it has, and what became of the node is settled in it. -/
theorem share (h : Tended g pool trails s p) (name : Option String)
    (hn : s.table.nodes.find? node = some n) (ht : s.table.trail? trail = some t)
    (own : ∀ name, trail = some name → name ∈ trails) :
    ∃ g' c p' size, (s.step (.share pool trail node) name).1 = .ok (.shared c p'.size size) ∧
      g ≤ g' ∧ Tended g' pool trails (s.step (.share pool trail node) name).2 p' ∧
      p.Advance True (n.tree.ReachesNew p.trees) p' ∧ g'.StandsFor n c ∧ p'.Settled c := by
  have into : t.Into p :=
    Bindings.trail?_induction ht Trail.into_empty fun name e => h.into name (own name e) t
  obtain ⟨g', c, x, next, journal, step, le, covered, tidy, advance, result⟩ :=
    h.covered.share name h.found hn ht fun _ : True => ⟨h.canonical, into⟩
  rw [step]
  refine ⟨g', c, x.pool, x.trail.size, rfl, le, ?_, advance, result.standsFor,
    result.settled trivial⟩
  exact {
    covered := covered
    found := by
      rw [bindNode_pools]
      exact Table.find?_insert_self s.table.pools pool x.pool
    canonical := (tidy trivial).pool
    into := fun name hname y hy => by
      rw [bindNode_trails] at hy
      rcases Bindings.find?_putSharing hy with rfl | old
      · exact (tidy trivial).trail
      · exact (h.into name hname y old).mono advance.kept }

/-- Sharing under names that are not all bound fails and leaves the pool as it is. -/
theorem share_unbound (h : Tended g pool trails s p) (trail : Option String) (node : String)
    (name : Option String)
    (unbound : s.table.nodes.find? node = none ∨ s.table.trail? trail = none) :
    ∃ failure, (s.step (.share pool trail node) name).1 = .error failure ∧
      Tended g pool trails (s.step (.share pool trail node) name).2 p := by
  obtain ⟨failure, step⟩ := step_share_unbound name h.found unbound
  rw [step]
  exact ⟨failure, rfl, h.keep h.covered h.found fun t ht x hx => .inr ⟨ht, hx⟩⟩

/-- **Putting a node in succeeds.** -/
theorem intern (h : Tended g pool trails s p) (name : Option String)
    (hn : s.table.nodes.find? node = some n) :
    (s.step (.intern pool node) name).1 = .ok (.interned (p.intern n).1 (p.intern n).2.size) ∧
      Tended g pool trails (s.step (.intern pool node) name).2 (p.intern n).2 := by
  have mem : n ∈ g := h.covered.mem ⟨node, hn⟩
  obtain ⟨hc, covered⟩ := h.over_pool.intern mem
  obtain ⟨journal, step⟩ := step_intern name h.found hn
  rw [step]
  refine ⟨rfl, ?_⟩
  exact {
    covered := Over.bindNode
      ⟨h.covered.1, h.covered.2.putSharing ⟨covered, Trail.over_empty⟩ pool none⟩ hc.1
    found := by
      rw [bindNode_pools]
      exact Table.find?_insert_self s.table.pools pool (p.intern n).2
    canonical := h.canonical.intern h.over_pool mem
    into := fun t ht x hx => by
      rw [bindNode_trails] at hx
      exact (h.into t ht x hx).mono (p.le_intern n) }

/-- Putting in what is not bound fails and leaves the pool as it is. -/
theorem intern_unbound (h : Tended g pool trails s p) (name : Option String)
    (unbound : s.table.nodes.find? node = none) :
    (s.step (.intern pool node) name).1 = .error (.unbound node) ∧
      Tended g pool trails (s.step (.intern pool node) name).2 p := by
  rw [step_intern_unbound name h.found unbound]
  exact ⟨rfl, h.keep h.covered h.found fun t ht x hx => .inr ⟨ht, hx⟩⟩

end Tended

end Session

end StackGraph
