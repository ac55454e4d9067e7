import StackGraph.Proofs.Commands

/-!
# Sessions over a graph

Whatever was done in a session, by commands that succeeded or failed, there is one graph of which
everything that is named anywhere is part: the nodes, and what memos, pools and trails hold. A
command grows the graph and keeps this up, so it holds after every list of commands.

* `Session.over_step`, `Session.over_steps`, `Session.over_replay` -- one step, and every run;
* `Session.step_of_reply`, `Session.step_of_node` -- a step whose command succeeds, and one whose
  command gives a node;
* `Session.Holds`, `Session.HoldsMemo`, `Session.HoldsPool` -- the nodes, memos and pools that have a
  name in a session;
* `Session.Yields`, `Session.Agree` -- what a program gives in a session, and programs that give
  equal nodes.
-/

namespace StackGraph

open Node

variable {g g' : Graph}

/-! ## 1. Runs -/

namespace Session

/-- One graph has everything that the session names, and its nodes are the ones made so far. -/
def Over (g : Graph) (s : Session) : Prop := Bindings.upkeep.At g s

/-- A step keeps up what its command does, whether it succeeds or fails. -/
theorem at_step {inv : Upkeep Bindings} {s : Session} {command : Command} {name : Option String}
    (performed : Grows True inv g (perform command name) fun _ _ => True) (h : inv.At g s) :
    ∃ g', g ≤ g' ∧ inv.At g' (s.step command name).2 := by
  have performed := performed { s with journal := #[] } h
  unfold step
  cases e : perform command name { s with journal := #[] } with
  | ok reply after =>
    rw [e] at performed
    obtain ⟨g', le, hafter, _⟩ := performed
    exact ⟨g', le, hafter⟩
  | error failure after =>
    rw [e] at performed
    exact performed.2

/-- **A step leads from a graph to a larger one** and changes no more than it may. -/
theorem over_step {s : Session} (h : s.Over g) (command : Command) (name : Option String) :
    ∃ g', g ≤ g' ∧ (s.step command name).2.Over g' ∧
      s.table.AgreeBut (command.writes name) (s.step command name).2.table :=
  let ⟨g', le, next, covered, but⟩ := at_step (Grows.perform command name) ⟨h.1, h.2, .refl _ _⟩
  ⟨g', le, ⟨next, covered⟩, but⟩

/-- Steps lead from a graph to a larger one. -/
theorem over_steps {s : Session} (h : s.Over g) (commands : List (Command × Option String)) :
    ∃ g', g ≤ g' ∧ (commands.foldl (fun s c => (s.step c.1 c.2).2) s).Over g' := by
  induction commands generalizing s g with
  | nil => exact ⟨g, g.le_refl, h⟩
  | cons c rest ih =>
    obtain ⟨g₁, le, h₁, _⟩ := over_step h c.1 c.2
    obtain ⟨g₂, le', h₂⟩ := ih h₁
    exact ⟨g₂, g.le_trans le le', h₂⟩

/-- **After any commands there is a graph of all nodes made so far.** -/
theorem over_replay (commands : List (Command × Option String)) :
    ∃ g, (replay commands).Over g := by
  have first : start.Over Graph.start := ⟨rfl, Bindings.over_start⟩
  obtain ⟨g, _, h⟩ := over_steps first commands
  exact ⟨g, h⟩

/-! ## 2. Single steps -/

end Session

namespace SessionM

variable {α : Type} {s : Session} {name : String}

/-- A name that is bound gives its value. -/
theorem need_run (field : Bindings → Table String α) {a : α}
    (h : (field s.table).find? name = some a) :
    (do GraphM.lift ((field (← GraphM.table)).need name) : SessionM α) s = .ok a s := by
  rw [GraphM.bind_run_of_ok (GraphM.table_run s)]
  unfold Table.need
  rw [h]
  rfl

/-- A name that is not bound is a failure, and nothing is changed. -/
theorem need_run_none (field : Bindings → Table String α) (h : (field s.table).find? name = none) :
    (do GraphM.lift ((field (← GraphM.table)).need name) : SessionM α) s =
      .error (.unbound name) s := by
  rw [GraphM.bind_run_of_ok (GraphM.table_run s)]
  unfold Table.need
  rw [h]
  rfl

theorem node_run {n : Node} (h : s.table.nodes.find? name = some n) :
    SessionM.node name s = .ok n s := need_run Bindings.nodes h

theorem pool_run {p : Pool} (h : s.table.pools.find? name = some p) :
    SessionM.pool name s = .ok p s := need_run Bindings.pools h

theorem trail_run {t : Trail} (h : s.table.trails.find? name = some t) :
    SessionM.trail name s = .ok t s := need_run Bindings.trails h

end SessionM

namespace Session

variable {s s' : Session} {command : Command} {reply : Reply} {name : Option String}

/-- The session in which a node is bound, when a name is given. -/
def bindNode (s : Session) (name : Option String) (n : Node) : Session :=
  match name with
  | none => s
  | some name => { s with table := { s.table with nodes := s.table.nodes.insert name n } }

/-- The session as a command finds it: with an empty journal. -/
def ready (s : Session) : Session := { s with journal := #[] }

/-- The session in which the value of a reply is bound, when a name is given. -/
def bindReply (s : Session) (reply : Reply) : Option String → Session
  | none => s
  | some name =>
    match reply.bindTo name s with
    | .ok _ after => after
    | .error _ after => after

theorem bindReply_run {name : String} {after : Session} (run : reply.bindTo name s = .ok () after) :
    s.bindReply reply (some name) = after := by
  simp [bindReply, run]

/-- **A step whose command succeeds replies and binds what the command brings.** -/
theorem step_of_reply (run : command.run s.ready = .ok reply s') :
    s.step command name = (.ok reply, s'.bindReply reply name) := by
  unfold step perform
  rw [show ({ s with journal := #[] } : Session) = s.ready from rfl, GraphM.bind_run_of_ok run]
  cases name with
  | none => rfl
  | some name =>
    cases reply with
    | node o => cases o <;> rfl
    | _ => rfl

/-- A step whose command gives a node binds the node. -/
theorem step_of_node {n : Node} (run : command.run s.ready = .ok reply s')
    (h : reply.node? = some n) : s.step command name = (.ok reply, s'.bindNode name n) := by
  rw [step_of_reply run]
  cases name with
  | none => rfl
  | some name =>
    cases reply with
    | node o =>
      cases o with
      | none => cases h
      | some m =>
        obtain rfl := Option.some.inj h
        rfl
    | merged m size | interned m size | shared m size trailSize =>
      obtain rfl := Option.some.inj h
      rfl
    | _ => cases h

/-- A step whose command fails binds nothing. -/
theorem step_of_error {failure : Failure} (run : command.run s.ready = .error failure s') :
    s.step command name = (.error failure, s') := by
  unfold step perform
  rw [show ({ s with journal := #[] } : Session) = s.ready from rfl, GraphM.bind_run_of_error run]

/-- What a session keeps up does not depend on the names of nodes. -/
theorem at_bindNode {inv : SessionUpkeep} (name : Option String) (h : inv.toUpkeep.At g s)
    {n : Node} (hn : n ∈ g) : inv.toUpkeep.At g (s.bindNode name n) := by
  cases name with
  | none => exact h
  | some name => exact ⟨h.1, inv.bind name h.2 hn⟩

theorem Over.bindNode {n : Node} (h : s.Over g) (hn : n ∈ g) : (s.bindNode name n).Over g := by
  cases name with
  | none => exact h
  | some name => exact ⟨h.1, h.2.bind hn name⟩

/-- The binding of a node changes no memo, no pool and no trail. -/
@[simp] theorem bindNode_memos (s : Session) (name : Option String) (n : Node) :
    (s.bindNode name n).table.memos = s.table.memos := by
  cases name <;> rfl

@[simp] theorem bindNode_pools (s : Session) (name : Option String) (n : Node) :
    (s.bindNode name n).table.pools = s.table.pools := by
  cases name <;> rfl

@[simp] theorem bindNode_trails (s : Session) (name : Option String) (n : Node) :
    (s.bindNode name n).table.trails = s.table.trails := by
  cases name <;> rfl

@[simp] theorem bindNode_journal (s : Session) (name : Option String) (n : Node) :
    (s.bindNode name n).journal = s.journal := by
  cases name <;> rfl

/-! ## 3. Programs in a session -/

/-- A node that has a name in the session. -/
def Holds (s : Session) (n : Node) : Prop := ∃ name, s.table.nodes.find? name = some n

/-- A memo that has a name in the session. -/
def HoldsMemo (s : Session) (t : MergeTable) : Prop := ∃ name, s.table.memos.find? name = some t

/-- A pool that has a name in the session. -/
def HoldsPool (s : Session) (p : Pool) : Prop := ∃ name, s.table.pools.find? name = some p

/-- A short session: a chain twice, its merge with the common bottom, a frame over another bottom, a
    pool and a trail. -/
def sample : List (Command × Option String) :=
  [(.chain "$" [2, 3], some "a"), (.chain "$" [2, 3], some "twin"),
    (.merge .exact none "a" "$", some "b"), (.anotherBottom, some "end"), (.push "end" 5, some "c"),
    (.newPool, some "pool"), (.newTrail, some "trail")]

theorem Over.mem {s : Session} (h : s.Over g) {n : Node} (hn : s.Holds n) : n ∈ g :=
  let ⟨_, found⟩ := hn
  h.2.nodes.find?_value found

theorem Over.memo {s : Session} (h : s.Over g) {t : MergeTable} (ht : s.HoldsMemo t) :
    MergeTable.Over g t :=
  let ⟨_, found⟩ := ht
  h.2.memos.find?_value found

theorem Over.pool {s : Session} (h : s.Over g) {p : Pool} (hp : s.HoldsPool p) : p.Over g :=
  let ⟨_, found⟩ := hp
  h.2.pools.find?_value found

/-- The program succeeds in the session, and its result satisfies `P`. -/
def Yields {α : Type} (s : Session) (act : SessionM α) (P : α → Prop) : Prop :=
  ∃ a after, act s = .ok a after ∧ P a

/-- What a program gives over every graph, it gives in a session. -/
theorem Over.yields {α : Type} {s : Session} (h : s.Over g) {inv : Upkeep Bindings}
    (kept : inv.Holds g s.table) {act : SessionM α} {P : α → Prop}
    (grows : Grows False inv g act fun _ a => P a) : s.Yields act P := by
  obtain ⟨a, after, _, e, _, _, hP⟩ := grows.result ⟨h.1, kept⟩
  exact ⟨a, after, e, hP⟩

/-- Both programs succeed, one after the other, and give equal nodes. -/
def Agree (s : Session) (act act' : SessionM Node) : Prop :=
  s.Yields (do return (← act) == (← act')) fun equal => equal = true

/-- Whether programs agree can be found out by running them. -/
instance (s : Session) (act act' : SessionM Node) : Decidable (s.Agree act act') :=
  match run : (do return (← act) == (← act') : SessionM Bool) s with
  | .ok true after => isTrue ⟨true, after, run, rfl⟩
  | .ok false _ => isFalse fun ⟨_, _, run', equal⟩ => by
      rw [run] at run'
      cases run'
      cases equal
  | .error _ _ => isFalse fun ⟨_, _, run', _⟩ => by
      rw [run] at run'
      cases run'

/-- **Programs agree when their results have the same tree.** -/
theorem Over.agree_iff {s : Session} (h : s.Over g) {inv : Upkeep Bindings}
    (kept : inv.Holds g s.table) {act act' : SessionM Node} {t t' : Tree}
    (grows : Grows False inv g act fun g' r => r ∈ g' ∧ r.tree = t)
    (grows' : ∀ g', g ≤ g' → Grows False inv g' act' fun g'' r => r ∈ g'' ∧ r.tree = t') :
    s.Agree act act' ↔ t = t' := by
  have compared : s.Yields (do return (← act) == (← act')) fun equal => equal = true ↔ t = t' := by
    refine h.yields kept (grows.bind fun g₁ x le ⟨hx, ex⟩ => ?_)
    refine (grows' g₁ le).bind fun g₂ y le' ⟨hy, ey⟩ => .pure ?_
    rw [Graph.beq_iff (le' x hx) hy, ex, ey]
  obtain ⟨equal, after, run, he⟩ := compared
  constructor
  · rintro ⟨equal', after', run', he'⟩
    rw [run] at run'
    obtain ⟨rfl, rfl⟩ := EStateM.Result.ok.inj run'
    exact he.mp he'
  · exact fun e => ⟨equal, after, run, he.mpr e⟩

/-- Programs whose results have one tree agree. -/
theorem Over.agree {s : Session} (h : s.Over g) {inv : Upkeep Bindings} (kept : inv.Holds g s.table)
    {act act' : SessionM Node} {t : Tree}
    (grows : Grows False inv g act fun g' r => r ∈ g' ∧ r.tree = t)
    (grows' : ∀ g', g ≤ g' → Grows False inv g' act' fun g'' r => r ∈ g'' ∧ r.tree = t) :
    s.Agree act act' :=
  (h.agree_iff kept grows grows').mpr rfl

end Session

end StackGraph
