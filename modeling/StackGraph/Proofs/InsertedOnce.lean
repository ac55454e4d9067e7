import StackGraph.Proofs.Insertions
import StackGraph.Proofs.StablePools

/-!
# Expanded nodes come in once, in every session

After any commands every pool is canonical, whatever trails it was used with: where a trail answers
for a node, nothing is put in, and what is put in is new. So to share a node puts in each expanded
node once. Where the trail was used with no other pool, and the pool was not emptied meanwhile, the
trail leads into the pool, and a node comes in after all that lies below it.

* `Pool.TakesNew.canonical` -- new nodes keep a pool canonical;
* `Session.Over.share_inserts` -- what a step that shares puts in and reports;
* `Session.Tended.share_other` -- sharing on a trail that need not lead into the pool;
* `Session.canonical_replay` -- **every pool of every session is canonical**;
* `Session.OnlyWith` -- a trail that was used with one pool only;
* `Session.Tended.keeps`, `Session.tidy_of_onlyWith` -- **such a trail leads into the pool**;
* `Session.shared_nodes_come_in_once` -- **each expanded node comes in once, and what lies below it
  before it**.
-/

namespace StackGraph

open Node

variable {g : Graph}

/-! ## 1. Canonical pools -/

namespace Pool

variable {tidy : Prop} {p : Pool} {q m : Node} {new before later : List Node}

/-- **New nodes keep a pool canonical.** -/
theorem TakesNew.canonical (h : p.TakesNew tidy new) (hp : p.Canonical)
    (covered : (p.followedBy new).Over g) : (p.followedBy new).Canonical := by
  induction new generalizing p with
  | nil =>
    have same : p.followedBy [] = p := congrArg Pool.mk (List.append_nil p.nodes)
    exact same.symm ▸ hp
  | cons m new ih =>
    obtain ⟨admits, rest⟩ := h
    have put : (p.intern m).2 = p.followedBy [m] := by
      rw [intern_of_find?_eq_none admits.no_bottom admits.unknown]
      rfl
    have own : p.Over g := fun n hn => covered n (le_followedBy p _ n hn)
    have mem : m ∈ g := covered m (List.mem_append_right _ List.mem_cons_self)
    have first : (p.followedBy [m]).Canonical := put ▸ hp.intern own mem
    have all : (p.followedBy [m]).followedBy new = p.followedBy (m :: new) :=
      followedBy_followedBy p [m] new
    exact all ▸ ih rest first (all ▸ covered)

/-- What is settled when a node comes in is not equal to a node that comes in later. -/
theorem TakesNew.later_ne (h : p.TakesNew tidy (before ++ m :: later))
    (covered : (p.followedBy (before ++ m :: later)).Over g) (hq : q ∈ g)
    (settled : (p.followedBy before).Settled q) : ∀ m' ∈ later, (m' == q) = false := by
  intro m' hm'
  obtain ⟨between, after, rfl⟩ := List.append_of_mem hm'
  have split : before ++ m :: (between ++ m' :: after) = (before ++ m :: between) ++ m' :: after := by
    rw [List.append_assoc, List.cons_append]
  rw [split] at h covered
  have mem : m' ∈ g :=
    covered m' (List.mem_append_right _ (List.mem_append_right _ List.mem_cons_self))
  have admits := h.admits
  refine Bool.eq_false_iff.mpr fun equal => ?_
  have trees : m'.tree = q.tree := (Graph.beq_iff mem hq).mp equal
  rcases settled with bottom | known
  · rw [← isBottom_eq_of_tree trees, admits.no_bottom] at bottom
    cases bottom
  · have kept : q ∈ (p.followedBy (before ++ m :: between)).nodes := by
      rw [← followedBy_followedBy]
      exact le_followedBy _ _ q known
    have same : (q == m') = true := (Graph.beq_iff hq mem).mpr trees.symm
    exact List.find?_eq_none.mp admits.unknown q kept same

/-- **In a tidy pool what lies below a node is found when the node comes in**, bottoms apart, and
    nothing equal to it comes in later. -/
theorem TakesNew.parents_first (h : p.TakesNew tidy (before ++ m :: later)) (hp : p.Canonical)
    (covered : (p.followedBy (before ++ m :: later)).Over g) (ht : tidy) (hq : q ∈ m.parents) :
    (q.isBottom = false → (p.followedBy before).find? q = some q) ∧
      ∀ m' ∈ later, (m' == q) = false := by
  have settled := h.admits.settled ht q hq
  have mem : m ∈ g :=
    covered m (List.mem_append_right _ (List.mem_append_right _ List.mem_cons_self))
  refine ⟨fun bottom => ?_, h.later_ne covered (Graph.parent_mem mem hq) settled⟩
  have earlier : (p.followedBy before).Over g := fun k hk => covered k (by
    rw [← followedBy_followedBy]
    exact le_followedBy _ _ k hk)
  have canonical := (takesNew_append.mp h).1.canonical hp earlier
  exact canonical.find?_of_mem earlier (settled.resolve_left (by simp [bottom]))

end Pool

/-! ## 2. Steps that share -/

namespace Session

variable {s : Session} {pool node : String} {trail : Option String} {p : Pool} {n : Node} {t : Trail}

/-- The nodes that are expanded when a node is shared in a pool on a trail. -/
def expanded (s : Session) (p : Pool) (t : Trail) (n : Node) : List Expansion :=
  expansions n ⟨s.next, #[], ⟨p, t⟩⟩

/-- **What a step that shares puts in and reports**, whatever the pool and the trail hold. -/
theorem Over.share_inserts {tidy : Prop} (hs : s.Over g) (name : Option String)
    (hp : s.table.pools.find? pool = some p) (hn : s.table.nodes.find? node = some n)
    (ht : s.table.trail? trail = some t) (clean : tidy → Sharing.Tidy ⟨p, t⟩) :
    ∃ g' c x next journal new,
      s.step (.share pool trail node) name =
        (.ok (.shared c x.pool.size x.trail.size),
          Session.bindNode ⟨next, journal, s.table.putSharing x pool trail⟩ name c) ∧
      g ≤ g' ∧ (Session.bindNode ⟨next, journal, s.table.putSharing x pool trail⟩ name c).Over g' ∧
      x.Over g' ∧
      Inserts tidy ⟨s.next, #[], ⟨p, t⟩⟩ ⟨next, journal, x⟩ (s.expanded p t n) new ∧
      (Sharing.answers ⟨p, t⟩ n = false → new.getLast? = some c) := by
  have start := hs.sharing hp ht clean
  have mem : n ∈ g := hs.mem ⟨node, hn⟩
  have shares : Shares tidy (fun _ => True) g ⟨s.next, #[], ⟨p, t⟩⟩
      (StackGraph.share n) _ :=
    Shares.share mem fun _ _ => trivial
  obtain ⟨c, ⟨next, journal, x⟩, g', run, le, hx, _, result⟩ := shares start
  obtain ⟨new, inserts, last⟩ := StackGraph.share_inserts start mem run
  refine ⟨g', c, x, next, journal, new, step_share name hp hn ht run, le, ?_, hx.covered, inserts,
    last⟩
  exact Over.bindNode ⟨hx.next, (Bindings.upkeep.mono le hs.2).putSharing hx.covered pool trail⟩
    result.standsFor.1

namespace Tended

variable {trails : Set String}

/-- **Sharing on any other trail** keeps the pool canonical, and the trails lead into it as before. -/
theorem share_other (h : Tended g pool trails s p) (name : Option String)
    (hn : s.table.nodes.find? node = some n) (ht : s.table.trail? trail = some t)
    (other : ∀ used, trail = some used → used ∉ trails) :
    ∃ g' p', g ≤ g' ∧ Tended g' pool trails (s.step (.share pool trail node) name).2 p' := by
  obtain ⟨g', c, x, next, journal, new, step, le, covered, hx, inserts, _⟩ :=
    Over.share_inserts h.covered name h.found hn ht False.elim
  have pool_eq : x.pool = p.followedBy new := inserts.pool_eq
  obtain ⟨_, _, _, but⟩ := over_step h.covered (.share pool trail node) name
  rw [step] at but ⊢
  exact ⟨g', x.pool, le, {
    covered := covered
    found := by
      rw [bindNode_pools]
      exact Table.find?_insert_self s.table.pools pool x.pool
    canonical := by
      rw [pool_eq]
      exact inserts.takes.canonical h.canonical (pool_eq ▸ hx.1)
    into := fun used hu y hy => by
      have old := (but.trails used fun e => other used e hu).symm.trans hy
      rw [pool_eq]
      exact (h.into used hu y old).mono (p.le_followedBy new) }⟩

/-- The same, whether or not the names are bound. -/
theorem step_share_other (h : Tended g pool trails s p) (trail : Option String) (node : String)
    (name : Option String) (other : ∀ used, trail = some used → used ∉ trails) :
    ∃ g' p', g ≤ g' ∧ Tended g' pool trails (s.step (.share pool trail node) name).2 p' := by
  have failed : s.table.nodes.find? node = none ∨ s.table.trail? trail = none →
      ∃ g' p', g ≤ g' ∧ Tended g' pool trails (s.step (.share pool trail node) name).2 p' :=
    fun unbound =>
      let ⟨_, _, tended⟩ := h.share_unbound trail node name unbound
      ⟨g, p, g.le_refl, tended⟩
  cases hn : s.table.nodes.find? node with
  | none => exact failed (.inl hn)
  | some n =>
    cases ht : s.table.trail? trail with
    | none => exact failed (.inr ht)
    | some t => exact h.share_other name hn ht other

end Tended

/-! ## 3. Every pool -/

/-- All pools that have a name are canonical. -/
def PoolsCanonical (s : Session) : Prop :=
  ∀ pool p, s.table.pools.find? pool = some p → p.Canonical

/-- **A step keeps every pool canonical.** A pool that is written to is new, or a node is put into it
    or shared in it, on whatever trail. -/
theorem PoolsCanonical.step (h : s.PoolsCanonical) (hs : s.Over g) (command : Command)
    (name : Option String) : (s.step command name).2.PoolsCanonical := by
  intro pool p found
  obtain ⟨_, _, _, but⟩ := over_step hs command name
  by_cases written : (command.writes name).pool = some pool
  · have tended : ∀ q, s.table.pools.find? pool = some q → Tended g pool ∅ s q := fun q hq =>
      ⟨hs, hq, h pool q hq, fun _ ht => absurd ht (Set.notMem_empty _)⟩
    have after : ∀ {g' q}, Tended g' pool ∅ (s.step command name).2 q → p.Canonical :=
      fun tended => Option.some.inj (tended.found.symm.trans found) ▸ tended.canonical
    cases command with
    | newPool =>
      obtain rfl : name = some pool := written
      exact step_newPool found ▸ Pool.canonical_empty
    | clearPool other =>
      obtain rfl : other = pool := Option.some.inj written
      exact step_clearPool found ▸ Pool.canonical_empty
    | intern other node =>
      obtain rfl : other = pool := Option.some.inj written
      cases hp : s.table.pools.find? other with
      | none =>
        rw [step_pool_unbound (SessionM.run_intern other node) hp name] at found
        exact h other p found
      | some q =>
        obtain ⟨_, stays, _⟩ := (tended q hp).step_intern node name
        exact after stays
    | share other trail node =>
      obtain rfl : other = pool := Option.some.inj written
      cases hp : s.table.pools.find? other with
      | none =>
        rw [step_pool_unbound (SessionM.run_share other node trail) hp name] at found
        exact h other p found
      | some q =>
        obtain ⟨_, _, _, stays⟩ := (tended q hp).step_share_other trail node name
          fun used _ => Set.notMem_empty used
        exact after stays
    | _ => cases written
  · exact h pool p ((but.pools pool written).symm.trans found)

/-- **Every pool of every session is canonical**, whatever trails were used with it. -/
theorem canonical_replay (commands : List (Command × Option String)) :
    (replay commands).PoolsCanonical := by
  induction commands using List.reverseRecOn with
  | nil => exact fun pool p found => nomatch found
  | append_singleton commands c ih =>
    obtain ⟨g, hs⟩ := over_replay commands
    have last : replay (commands ++ [c]) = ((replay commands).step c.1 c.2).2 := List.foldl_append
    rw [last]
    exact ih.step hs c.1 c.2

end Session

/-! ## 4. Trails that are used with one pool -/

/-- What may be done while the trail is used with the pool only, and the pool is not emptied. -/
def Command.KeepsTrail (pool trail : String) (name : Option String) : Command → Prop
  | .share p used _ => used = some trail → p = pool
  | .clearPool p => p ≠ pool
  | .newPool => name ≠ some pool
  | _ => True

namespace Session

variable {s : Session} {pool node trail : String} {used : Option String} {p : Pool} {n : Node}
  {t : Trail} {commands : List (Command × Option String)}

/-- **A trail that is used with one pool only leads into it after every step**, whatever is done with
    other trails. -/
theorem Tended.keeps (h : Tended g pool {trail} s p) {command : Command} {name : Option String}
    (keeps : command.KeepsTrail pool trail name) :
    ∃ g' p', g ≤ g' ∧ Tended g' pool {trail} (s.step command name).2 p' := by
  by_cases written : (command.writes name).pool = some pool
  · cases command with
    | newPool => exact absurd written keeps
    | clearPool other => exact absurd (Option.some.inj written) keeps
    | intern other node =>
      obtain rfl : other = pool := Option.some.inj written
      obtain ⟨p', tended, _⟩ := h.step_intern node name
      exact ⟨g, p', g.le_refl, tended⟩
    | share other used node =>
      obtain rfl : other = pool := Option.some.inj written
      by_cases own : used = some trail
      · obtain ⟨g', p', le, tended, _⟩ := h.step_share used node name fun t e =>
          Option.some.inj (e.symm.trans own)
        exact ⟨g', p', le, tended⟩
      · refine h.step_share_other used node name fun t e ht => own ?_
        exact e.trans (congrArg some ht)
    | _ => cases written
  · have into : ∀ t ∈ ({trail} : Set String),
        ((command = .newTrail ∧ name = some t) ∨ command = .clearTrail t) ∨
          (t ∈ ({trail} : Set String) ∧ (command.writes name).trail ≠ some t) := by
      intro t ht
      obtain rfl : t = trail := ht
      by_cases writes : (command.writes name).trail = some t
      · cases command with
        | newTrail => exact .inl (.inl ⟨rfl, writes⟩)
        | clearTrail other => exact .inl (.inr (congrArg _ (Option.some.inj writes)))
        | share other used node => exact absurd (congrArg some (keeps writes)) written
        | _ => cases writes
      · exact .inr ⟨rfl, writes⟩
    obtain ⟨g', le, tended⟩ := h.other written into
    exact ⟨g', p, le, tended⟩

/-- The same after a list of commands. -/
theorem Tended.keeps_all (h : Tended g pool {trail} s p)
    (keeps : ∀ c ∈ commands, c.1.KeepsTrail pool trail c.2) :
    ∃ g' p', Tended g' pool {trail} (commands.foldl (fun s c => (s.step c.1 c.2).2) s) p' := by
  induction commands generalizing g s p with
  | nil => exact ⟨g, p, h⟩
  | cons c rest ih =>
    obtain ⟨now, later⟩ := List.forall_mem_cons.mp keeps
    obtain ⟨g₁, p₁, _, h₁⟩ := h.keeps now
    exact ih h₁ later

/-- The trail, if one is used, was empty at some time, and since then it was used with the pool only,
    which was not emptied. -/
def OnlyWith (commands : List (Command × Option String)) (pool : String) (used : Option String) :
    Prop :=
  ∀ trail, used = some trail → ∃ first more, commands = first ++ more ∧
    ((replay first).table.pools.find? pool).isSome ∧
    (∀ x, (replay first).table.trails.find? trail = some x → x = .empty) ∧
    ∀ c ∈ more, c.1.KeepsTrail pool trail c.2

/-- **Such a trail leads into the pool**, and the pool is canonical. -/
theorem tidy_of_onlyWith (only : OnlyWith commands pool used)
    (hp : (replay commands).table.pools.find? pool = some p)
    (ht : (replay commands).table.trail? used = some t) : Sharing.Tidy ⟨p, t⟩ := by
  refine ⟨canonical_replay commands pool p hp, ?_⟩
  refine Bindings.trail?_induction ht Trail.into_empty fun trail named found => ?_
  obtain ⟨first, more, rfl, bound, empty, keeps⟩ := only trail named
  obtain ⟨p₀, hp₀⟩ := Option.isSome_iff_exists.mp bound
  obtain ⟨g₀, hs⟩ := over_replay first
  have start : Tended g₀ pool {trail} (replay first) p₀ :=
    { covered := hs
      found := hp₀
      canonical := canonical_replay first pool p₀ hp₀
      into := fun used hu x hx => empty x (hu ▸ hx) ▸ Trail.into_empty }
  obtain ⟨g, q, tended⟩ := start.keeps_all keeps
  rw [show more.foldl (fun s c => (s.step c.1 c.2).2) (replay first) = replay (first ++ more) from
    List.foldl_append.symm] at tended
  obtain rfl : q = p := Option.some.inj (tended.found.symm.trans hp)
  exact tended.into trail rfl t found

/-! ## 5. Each expanded node comes in once -/

/-- **Sharing a node puts in each expanded node once, and what lies below it before it.** After any
    commands, let a node be shared in a pool on a trail, whatever they hold. For each node that is
    expanded the pool takes in one node, in the order in which the expansions end: the node itself, if
    every slot still leads to the same node, and else the one that it is rebuilt to, of the same
    structure over the new slots. Each of them is new to the pool, no two of them are equal, and
    nothing else comes in. It is reported once for each of them, and that one was rebuilt is reported
    directly afterwards. If the trail was used with no other pool since it was empty, and the pool was
    not emptied meanwhile, then what lies below a node that comes in is in the pool already, bottoms
    apart, and nothing equal to it comes in later. -/
theorem shared_nodes_come_in_once (commands : List (Command × Option String)) (pool node : String)
    (used name : Option String) (p : Pool) (t : Trail) (n : Node)
    (hp : (replay commands).table.pools.find? pool = some p)
    (ht : (replay commands).table.trail? used = some t)
    (hn : (replay commands).table.nodes.find? node = some n) :
    ∃ c p' size new after,
      (replay commands).step (.share pool used node) name = (.ok (.shared c p'.size size), after) ∧
      after.table.pools.find? pool = some p' ∧ p'.nodes = p.nodes ++ new ∧
      List.Forall₂ (Expansion.Becomes (replay commands).next) ((replay commands).expanded p t n) new ∧
      (Sharing.answers ⟨p, t⟩ n = false → new.getLast? = some c) ∧
      (∀ before m later, new = before ++ m :: later →
        m.isBottom = false ∧ (p.followedBy before).find? m = none ∧
        (OnlyWith commands pool used → ∀ q ∈ m.parents,
          (q.isBottom = false → (p.followedBy before).find? q = some q) ∧
          ∀ m' ∈ later, (m' == q) = false)) ∧
      new.Pairwise (fun m m' => (m == m') = false) ∧
      after.journal.toList =
        (List.zipWith Expansion.events ((replay commands).expanded p t n) new).flatten ∧
      p'.size = p.size + (after.journal.toList.filterMap Event.pooledKey?).length ∧
      RebuiltWhenPooled after.journal.toList := by
  obtain ⟨g, hs⟩ := over_replay commands
  obtain ⟨g', c, x, next, journal, new, step, _, _, hx, inserts, last⟩ :=
    Over.share_inserts hs name hp hn ht fun only => tidy_of_onlyWith only hp ht
  have pool_eq : x.pool = p.followedBy new := inserts.pool_eq
  have held : (p.followedBy new).Over g' := pool_eq ▸ hx.1
  have canonical := canonical_replay commands pool p hp
  refine ⟨c, x.pool, x.trail.size, new, _, step, ?_, congrArg Pool.nodes pool_eq, inserts.becomes,
    last, fun before m later split => ?_, inserts.takes.pairwise_ne, ?_, ?_, ?_⟩
  · rw [bindNode_pools]
    exact Table.find?_insert_self (replay commands).table.pools pool x.pool
  · subst split
    have takes := inserts.takes
    have admits := takes.admits
    exact ⟨admits.no_bottom, admits.unknown, fun only q => takes.parents_first canonical held only⟩
  · rw [bindNode_journal]
    exact inserts.journal_eq
  · rw [bindNode_journal]
    exact inserts.size_eq rfl
  · rw [bindNode_journal]
    exact inserts.rebuiltWhenPooled rfl

/-- A node is shared whose parts stand below a choice that is not shared yet. -/
def stacked : List (Command × Option String) :=
  sample ++ [(.share "pool" (some "trail") "twin", none), (.push "b" 7, some "d")]

/-- The choice and the frame over it are rebuilt. -/
theorem shared_nodes_come_in_once_rebuilt :
    ∃ p t d c, ∃ p' : Pool, ∃ size new after,
      (replay stacked).table.pools.find? "pool" = some p ∧
      (replay stacked).table.trails.find? "trail" = some t ∧
      (replay stacked).table.nodes.find? "d" = some d ∧
      (replay stacked).step (.share "pool" (some "trail") "d") none =
        (.ok (.shared c p'.size size), after) ∧
      p'.nodes = p.nodes ++ new ∧ p'.size = 4 ∧ new.length = 2 ∧ new.getLast? = some c ∧
      ((replay stacked).expanded p t d).map (fun e => decide e.Kept) = [false, false] ∧
      (∀ before m later, new = before ++ m :: later → ∀ q ∈ m.parents, q.isBottom = false →
        (p.followedBy before).find? q = some q) ∧
      (after.journal.toList.filterMap Event.pooledKey?).length = 2 ∧
      RebuiltWhenPooled after.journal.toList := by
  have bound : ((replay stacked).table.pools.find? "pool").isSome ∧
      ((replay stacked).table.trails.find? "trail").isSome ∧
      ((replay stacked).table.nodes.find? "d").isSome := by decide +kernel
  obtain ⟨p, hp⟩ := Option.isSome_iff_exists.mp bound.1
  obtain ⟨t, ht⟩ := Option.isSome_iff_exists.mp bound.2.1
  obtain ⟨d, hd⟩ := Option.isSome_iff_exists.mp bound.2.2
  have only : OnlyWith stacked "pool" (some "trail") := by
    intro trail e
    obtain rfl := Option.some.inj e
    refine ⟨sample, _, rfl, rfl, fun x found => (Option.some.inj found).symm, ?_⟩
    exact List.forall_mem_cons.mpr ⟨fun _ => rfl, List.forall_mem_singleton.mpr trivial⟩
  obtain ⟨c, p', size, new, after, step, found, nodes, _, last, each, _, _, grown, rebuilt⟩ :=
    shared_nodes_come_in_once stacked "pool" "d" (some "trail") none p t d hp ht hd
  have before : ((replay stacked).table.pools.find? "pool").map Pool.size = some 2 := by
    decide +kernel
  have later : (((replay stacked).step (.share "pool" (some "trail") "d") none).2.table.pools.find?
      "pool").map Pool.size = some 4 := by
    decide +kernel
  have expands : ((replay stacked).table.pools.find? "pool").bind (fun p =>
      ((replay stacked).table.trails.find? "trail").bind fun t =>
        ((replay stacked).table.nodes.find? "d").map fun d =>
          (Sharing.answers ⟨p, t⟩ d,
            ((replay stacked).expanded p t d).map fun e => decide e.Kept)) =
        some (false, [false, false]) := by
    decide +kernel
  rw [hp] at before
  rw [step, found] at later
  simp only [hp, ht, hd, Option.bind_some, Option.map_some, Option.some.injEq, Prod.mk.injEq]
    at expands
  have before : p.size = 2 := Option.some.inj before
  have later : p'.size = 4 := Option.some.inj later
  have length : new.length = 2 := by
    have sizes : p'.size = p.size + new.length := (congrArg List.length nodes).trans List.length_append
    omega
  exact ⟨p, t, d, c, p', size, new, after, hp, ht, hd, step, nodes, later, length, last expands.1,
    expands.2, fun before m later split q hq => ((each before m later split).2.2 only q hq).1,
    by omega, rebuilt⟩

end Session

end StackGraph
