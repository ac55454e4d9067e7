import StackGraph.Node.Entries
import StackGraph.Proofs.Merging
import StackGraph.Proofs.Sharing
import StackGraph.Proofs.Tables
import StackGraph.Session.Step

/-!
# Commands over a graph

A command grows the graph, what it names and replies is part of the graph, and of the memos, pools
and trails that have a name it changes no others than those that it is given or that it makes.

* `Bindings.Over`, `Reply.Over` -- named values, and the value of a reply, over a graph;
* `Command.writes`, `Bindings.AgreeBut` -- what a command may change;
* `SessionUpkeep` -- what is kept up when nodes are bound, and more than being over the graph;
* `Grows.runMerge` -- a merge with any memo or with none;
* `Grows.run`, `Grows.perform` -- **one command**, case by case.
-/

namespace StackGraph

open Node

variable {g g' : Graph}

/-! ## 1. Values over a graph -/

/-- Everything that is named is part of the graph. -/
structure Bindings.Over (g : Graph) (b : Bindings) : Prop where
  nodes : b.nodes.Every fun _ n => n ∈ g
  memos : b.memos.Every fun _ t => MergeTable.Over g t
  pools : b.pools.Every fun _ p => p.Over g
  trails : b.trails.Every fun _ t => t.Over g

/-- What the bindings of a session have to keep up: to be over the graph. -/
def Bindings.upkeep : Upkeep Bindings where
  Holds := Bindings.Over
  mono le h :=
    { nodes := h.nodes.imp fun _ n hn => le n hn
      memos := h.memos.imp fun _ _ ht => ht.mono le
      pools := h.pools.imp fun _ _ hp => hp.mono le
      trails := h.trails.imp fun _ _ ht => ht.mono le }

theorem Bindings.over_start : Bindings.start.Over Graph.start where
  nodes := Table.every_empty.insert_value rfl
  memos := Table.every_empty
  pools := Table.every_empty
  trails := Table.every_empty

theorem Bindings.Over.bind {b : Bindings} (h : b.Over g) {n : Node} (hn : n ∈ g) (name : String) :
    Bindings.Over g { b with nodes := b.nodes.insert name n } :=
  { h with nodes := h.nodes.insert_value hn }

/-- The bindings after a run on a pool and a trail, which are put back under their names. -/
def Bindings.putSharing (b : Bindings) (x : Sharing) (name : String) (trail : Option String) :
    Bindings :=
  { b with
    pools := b.pools.insert name x.pool
    trails := match trail with
      | some trail => b.trails.insert trail x.trail
      | none => b.trails }

theorem Bindings.Over.putSharing {b : Bindings} (h : b.Over g) {x : Sharing} (hx : x.Over g)
    (name : String) (trail : Option String) : (b.putSharing x name trail).Over g where
  nodes := h.nodes
  memos := h.memos
  pools := h.pools.insert_value hx.1
  trails := by
    cases trail with
    | none => exact h.trails
    | some trail => exact h.trails.insert_value hx.2

/-- What the reply to a command brings: a node of the graph, or a value that knows nothing yet. -/
def Reply.Over (g : Graph) (command : Command) : Reply → Prop
  | .node (some n) => n ∈ g
  | .merged n _ => n ∈ g
  | .interned n _ => n ∈ g
  | .shared n _ _ => n ∈ g
  | .memo t => command = .newMemo ∧ t = .empty
  | .pool p => command = .newPool ∧ p = .empty
  | .trail t => command = .newTrail ∧ t = .empty
  | _ => True

theorem Reply.over_node {command : Command} {o : Option Node} (h : ∀ n, o = some n → n ∈ g) :
    (Reply.node o).Over g command := by
  cases o with
  | none => trivial
  | some n => exact h n rfl

/-! ## 2. What a command may change -/

/-- Names of the memo, the pool and the trail that may be changed. -/
structure Writes where
  memo : Option String := none
  pool : Option String := none
  trail : Option String := none

/-- What a command may change, when `name` is the name for what it makes. -/
def Command.writes (name : Option String) : Command → Writes
  | .merge _ memo _ _ => { memo := memo }
  | .mergeAll _ memo _ => { memo := memo }
  | .mergeChains _ memo _ => { memo := memo }
  | .newMemo => { memo := name }
  | .record memo _ _ _ => { memo := some memo }
  | .clearMemo memo => { memo := some memo }
  | .newPool => { pool := name }
  | .intern pool _ => { pool := some pool }
  | .clearPool pool => { pool := some pool }
  | .share pool trail _ => { pool := some pool, trail := trail }
  | .newTrail => { trail := name }
  | .clearTrail trail => { trail := some trail }
  | _ => {}

/-- All other memos, pools and trails are as they were. -/
structure Bindings.AgreeBut (w : Writes) (b b' : Bindings) : Prop where
  memos : b.memos.AgreeBut w.memo b'.memos
  pools : b.pools.AgreeBut w.pool b'.pools
  trails : b.trails.AgreeBut w.trail b'.trails

theorem Bindings.AgreeBut.refl (w : Writes) (b : Bindings) : b.AgreeBut w b :=
  ⟨.refl _ _, .refl _ _, .refl _ _⟩

theorem Bindings.AgreeBut.putSharing {w : Writes} {b b' : Bindings} (h : b.AgreeBut w b')
    (x : Sharing) {name : String} {trail : Option String} (hp : w.pool = some name)
    (ht : ∀ name, trail = some name → w.trail = some name) :
    b.AgreeBut w (b'.putSharing x name trail) where
  memos := h.memos
  pools := h.pools.insert hp _
  trails := by
    cases trail with
    | none => exact h.trails
    | some trail => exact h.trails.insert (ht trail rfl) _

/-- A fact about the bindings of a session by which they are over the graph, and which does not
    depend on the names of nodes. -/
structure SessionUpkeep extends Upkeep Bindings where
  covered : ∀ {g : Graph} {b : Bindings}, Holds g b → b.Over g
  bind : ∀ {g : Graph} {b : Bindings} {n : Node} (name : String), Holds g b → n ∈ g →
    Holds g { b with nodes := b.nodes.insert name n }

/-- To be over the graph, and to have changed nothing but what may be changed. -/
def SessionUpkeep.but (w : Writes) (old : Bindings) : SessionUpkeep where
  Holds g b := b.Over g ∧ old.AgreeBut w b
  mono le h := ⟨Bindings.upkeep.mono le h.1, h.2⟩
  covered h := h.1
  bind name h hn := ⟨h.1.bind hn name, { h.2 with }⟩

/-! ## 3. Names -/

namespace Grows

section Names

variable {fails : Prop} {α : Type}

/-- The value of a name, which satisfies what is kept up of it. -/
theorem named {inv : Upkeep Bindings} {field : Bindings → Table String α} {P : Graph → α → Prop}
    {name : String} (there : ∀ {g b}, inv.Holds g b → fails ∨ ((field b).find? name).isSome)
    (h : ∀ {g b a}, inv.Holds g b → (field b).find? name = some a → P g a) :
    Grows fails inv g (do GraphM.lift ((field (← GraphM.table)).need name)) P := by
  refine table.bind fun g₁ b _ hb => ?_
  unfold Table.need
  cases found : (field b).find? name with
  | none =>
    refine .throw ((there hb).resolve_right ?_)
    simp [found]
  | some a => exact .pure (h hb found)

/-- A computation that uses no table leaves the names as they are. -/
theorem plain {inv : Upkeep Bindings} {act : GraphM Unit α} {post : Graph → α → Prop}
    (h : Grows fails .none g act post) : Grows fails inv g (SessionM.plain act) post :=
  within (fun _ _ => trivial) (fun _ _ _ _ hb => hb) h

/-- A merge without a memo never fails and has the merged tree. -/
theorem mergePlain {inv : Upkeep Bindings} {mode : Mode} {a b : Node} (ha : a ∈ g) (hb : b ∈ g) :
    Grows False inv g (SessionM.plain (StackGraph.merge mode a b))
      fun g' r => r ∈ g' ∧ r.tree = Tree.merge mode a.tree b.tree := by
  have merged : Grows False (MemoUpkeep.nothing mode).toUpkeep g (StackGraph.merge mode a b) _ :=
    merge ha hb
  exact (plain merged).weaken fun _ _ _ h => ⟨h.mem, h.tree_eq trivial⟩

/-- The merges of a list without a memo never fail and have the merged tree. -/
theorem mergeAllPlain {inv : Upkeep Bindings} {mode : Mode} {nodes : List Node}
    (h : ∀ n ∈ nodes, n ∈ g) :
    Grows False inv g (SessionM.plain (StackGraph.mergeAll mode nodes))
      fun g' r => r ∈ g' ∧ r.tree = Tree.mergeAll mode (nodes.map tree) := by
  have merged : Grows False (MemoUpkeep.nothing mode).toUpkeep g
      (StackGraph.mergeAll mode nodes) _ := mergeAll h
  exact (plain merged).weaken fun _ _ _ ⟨hn, e⟩ => ⟨hn, e trivial⟩

variable {inv : SessionUpkeep}

theorem node (name : String) :
    Grows True inv.toUpkeep g (SessionM.node name) fun g' n => n ∈ g' :=
  named (fun _ => .inl trivial) fun hb => (inv.covered hb).nodes.find?_value

theorem memo (name : String) :
    Grows True inv.toUpkeep g (SessionM.memo name) fun g' t => MergeTable.Over g' t :=
  named (fun _ => .inl trivial) fun hb => (inv.covered hb).memos.find?_value

theorem pool (name : String) :
    Grows True inv.toUpkeep g (SessionM.pool name) fun g' p => p.Over g' :=
  named (fun _ => .inl trivial) fun hb => (inv.covered hb).pools.find?_value

theorem trail (name : String) :
    Grows True inv.toUpkeep g (SessionM.trail name) fun g' t => t.Over g' :=
  named (fun _ => .inl trivial) fun hb => (inv.covered hb).trails.find?_value

theorem network (name : String) :
    Grows True inv.toUpkeep g (SessionM.network name) fun _ _ => True :=
  named (fun _ => .inl trivial) fun _ _ => trivial

theorem stack (name : String) :
    Grows True inv.toUpkeep g (SessionM.stack name) fun _ _ => True :=
  named (fun _ => .inl trivial) fun _ _ => trivial

theorem node? (name : Option String) :
    Grows True inv.toUpkeep g (SessionM.node? name) fun g' o => ∀ n, o = some n → n ∈ g' := by
  cases name with
  | none => exact .pure fun _ h => nomatch h
  | some name => exact .map ((node name).weaken fun _ _ _ hn m e => Option.some.inj e ▸ hn)

theorem putNode {name : String} {n : Node} (hn : n ∈ g) :
    Grows fails inv.toUpkeep g (SessionM.putNode name n) fun _ _ => True :=
  change fun _ hb => inv.bind name hb hn

end Names

section Changes

variable {fails : Prop} {w : Writes} {old : Bindings}

theorem putMemo {name : String} {t : MergeTable} (hw : w.memo = some name)
    (ht : MergeTable.Over g t) :
    Grows fails (SessionUpkeep.but w old).toUpkeep g (SessionM.putMemo name t) fun _ _ => True :=
  change fun _ ⟨covered, but⟩ =>
    ⟨{ covered with memos := covered.memos.insert_value ht },
      { but with memos := but.memos.insert hw t }⟩

theorem putPool {name : String} {p : Pool} (hw : w.pool = some name) (hp : p.Over g) :
    Grows fails (SessionUpkeep.but w old).toUpkeep g (SessionM.putPool name p) fun _ _ => True :=
  change fun _ ⟨covered, but⟩ =>
    ⟨{ covered with pools := covered.pools.insert_value hp },
      { but with pools := but.pools.insert hw p }⟩

theorem putTrail {name : String} {t : Trail} (hw : w.trail = some name) (ht : t.Over g) :
    Grows fails (SessionUpkeep.but w old).toUpkeep g (SessionM.putTrail name t) fun _ _ => True :=
  change fun _ ⟨covered, but⟩ =>
    ⟨{ covered with trails := covered.trails.insert_value ht },
      { but with trails := but.trails.insert hw t }⟩

theorem putNetwork {name : String} {net : Network} :
    Grows fails (SessionUpkeep.but w old).toUpkeep g (SessionM.putNetwork name net)
      fun _ _ => True :=
  change fun _ ⟨covered, but⟩ => ⟨{ covered with }, { but with }⟩

theorem putStack {name : String} {calls : CallStack} :
    Grows fails (SessionUpkeep.but w old).toUpkeep g (SessionM.putStack name calls)
      fun _ _ => True :=
  change fun _ ⟨covered, but⟩ => ⟨{ covered with }, { but with }⟩

theorem onPool {α : Type} {name : String} {p : Pool} {trail : Option String} {t : Trail}
    {act : GraphM Sharing α} {post : Graph → α → Prop} (hw : w.pool = some name)
    (hw' : ∀ name, trail = some name → w.trail = some name) (hp : p.Over g) (ht : t.Over g)
    (h : Grows fails Sharing.upkeep g act post) :
    Grows fails (SessionUpkeep.but w old).toUpkeep g (SessionM.onPool name p trail t act) post :=
  have both : Sharing.Over g ⟨p, t⟩ := ⟨hp, ht⟩
  within (fun _ _ => both)
    (fun _ _ x hx ⟨covered, but⟩ => ⟨covered.putSharing hx name trail, but.putSharing x hw hw'⟩) h

end Changes

/-! ## 4. Merges with a memo or without one -/

/-- **A merge with a memo of a known kind, or without one.** Its node has the merged tree where the
    memo is honest. -/
theorem runMerge {fails honest : Prop} {mode : Mode} {inv : SessionUpkeep}
    (known : MemoUpkeep MergeTable honest mode) {memo : Option String} {nodes : List Node}
    (asked : ∀ name, memo = some name → ∀ {g},
      Grows fails inv.toUpkeep g (SessionM.memo name) known.Holds)
    (kept : ∀ name, memo = some name → ∀ {g b t}, known.Holds g t → inv.Holds g b →
      inv.Holds g { b with memos := b.memos.insert name t })
    (h : ∀ n ∈ nodes, n ∈ g) :
    Grows fails inv.toUpkeep g (Command.runMerge mode memo nodes) fun g' r =>
      ∃ n size, r = .merged n (memo.map fun _ => size) ∧ n ∈ g' ∧
        (honest → n.tree = Tree.mergeAll mode (nodes.map tree)) := by
  cases memo with
  | none =>
    refine ((mergeAllPlain h).mayFailFor False.elim).bind fun g₁ n _ ⟨hn, e⟩ => .pure ?_
    exact ⟨n, 0, rfl, hn, fun _ => e⟩
  | some name =>
    refine (asked name rfl).bind fun g₁ t le ht => ?_
    have merged : Grows False known.toUpkeep g₁ (StackGraph.mergeAll mode nodes) _ :=
      mergeAll fun n hn => le n (h n hn)
    have onMemo : Grows False inv.toUpkeep g₁
        (SessionM.onMemo name t (StackGraph.mergeAll mode nodes)) _ :=
      within (fun _ _ => ht) (fun _ _ _ ht' hb => kept name rfl ht' hb) merged
    refine (onMemo.mayFailFor False.elim).bind fun g₂ n _ ⟨hn, e⟩ => ?_
    exact (asked name rfl).bind fun g₃ t' le' _ => .pure ⟨n, t'.size, rfl, le' n hn, e⟩

end Grows

/-- How a command that merges says what is merged. -/
inductive Operands where
  | pair (a b : String)
  | all (names : List String)
  | chains (states : List (List State))

namespace Operands

/-- The command that merges the operands. -/
def command (mode : Mode) (memo : Option String) : Operands → Command
  | pair a b => .merge mode memo a b
  | all names => .mergeAll mode memo names
  | chains states => .mergeChains mode memo states

/-- The nodes that are merged. -/
def nodes : Operands → SessionM (List Node)
  | pair a b => do return [← SessionM.node a, ← SessionM.node b]
  | all names => names.mapM SessionM.node
  | chains states => states.mapM (Node.chain Node.empty)

theorem run_command (mode : Mode) (memo : Option String) (operands : Operands) :
    (operands.command mode memo).run = operands.nodes >>= Command.runMerge mode memo := by
  cases operands with
  | pair a b => simp only [command, nodes, Command.run, bind_assoc, pure_bind]
  | all names => rfl
  | chains states => rfl

end Operands

namespace Grows

theorem operands {inv : SessionUpkeep} (operands : Operands) :
    Grows True inv.toUpkeep g operands.nodes fun g' nodes => ∀ n ∈ nodes, n ∈ g' := by
  cases operands with
  | pair a b =>
    refine (node a).bind fun g₁ m le hm => (node b).bind fun g₂ n le' hn => .pure ?_
    exact List.forall_mem_cons.mpr ⟨le' m hm, List.forall_mem_singleton.mpr hn⟩
  | all names => exact mapM (P := fun g n => n ∈ g) (fun le h => le _ h) fun _ _ name _ => node name
  | chains states =>
    refine mapM (P := fun g n => n ∈ g) (fun le h => le _ h) fun g' _ states _ => ?_
    exact (chain g'.empty_mem).mayFail.weaken fun _ _ _ h => h.1

section Commands

variable {old : Bindings} {name : Option String}

/-- A command that merges, whatever its memo holds. -/
theorem merges {mode : Mode} {memo : Option String} (operands : Operands) :
    Grows True (SessionUpkeep.but { memo := memo } old).toUpkeep g (operands.command mode memo).run
      fun g' r => r.Over g' (operands.command mode memo) := by
  rw [Operands.run_command]
  refine (Grows.operands operands).bind fun g₁ nodes _ h => ?_
  refine (runMerge (.table mode) (fun name _ _ => Grows.memo name) ?_ h).weaken ?_
  · exact fun name e _ _ t ht ⟨covered, but⟩ =>
      ⟨{ covered with memos := covered.memos.insert_value ht },
        { but with memos := but.memos.insert e t }⟩
  · rintro g₂ r _ ⟨n, size, rfl, hn, _⟩
    exact hn

/-! ## 5. All commands -/

/-- A node is shared, and the trail is measured. -/
theorem shareSized {w : Writes} {name : String} {p : Pool} {trail : Option String} {t : Trail}
    {n : Node} (hw : w.pool = some name) (hw' : ∀ name, trail = some name → w.trail = some name)
    (hp : p.Over g) (ht : t.Over g) (hn : n ∈ g) :
    Grows True (SessionUpkeep.but w old).toUpkeep g
      (SessionM.onPool name p trail t do
        let shared ← StackGraph.share n
        return (shared, (← GraphM.table).trail.size))
      fun g' r => r.1 ∈ g' := by
  refine (onPool hw hw' hp ht
    ((share hn).bind fun g₁ c _ hc => table.bind fun g₂ x le _ => ?_)).mayFail
  exact .pure (le c hc.1)

/-- **A command grows the graph and changes no more than it may, and what it replies is part of the
    graph or empty.** -/
theorem run (command : Command) :
    Grows True (SessionUpkeep.but (command.writes name) old).toUpkeep g command.run
      fun g' r => r.Over g' command := by
  match command with
  | .bottom => exact .pure g.empty_mem
  | .anotherBottom => exact anotherBottom.bind fun _ _ _ hn => .pure hn.1
  | .push below state =>
    exact (node below).bind fun _ _ _ hb => (push hb state).mayFail.bind fun _ _ _ hn => .pure hn.1
  | .chain base states =>
    exact (node base).bind fun _ _ _ hb => (chain hb).mayFail.bind fun _ _ _ hn => .pure hn.1
  | .ofLists states parents =>
    refine (mapM (fun le h n e => le n (h n e)) fun _ _ name _ => node? name).bind
      fun _ _ _ hp => ?_
    exact (ofLists hp).bind fun _ _ _ hn => .pure hn
  | .tower base states depth =>
    exact (node base).bind fun _ _ _ hb => (tower hb).bind fun _ _ _ hn => .pure hn
  | .parentAt name index =>
    refine (node name).bind fun g₁ n le hn => lift.mayFail.bind fun g₂ slot le' hs => .pure ?_
    exact Reply.over_node fun p hp => le' p (Graph.slot_parent_mem hn (mem_slots_of_slotAt hs) hp)
  | .merge mode memo a b => exact merges (.pair a b)
  | .mergeAll mode memo nodes => exact merges (.all nodes)
  | .mergeChains mode memo chains => exact merges (.chains chains)
  | .newMemo => exact .pure ⟨rfl, rfl⟩
  | .recall name a b =>
    refine (memo name).bind fun g₁ t le ht => (node a).bind fun g₂ m le' _ =>
      (node b).bind fun g₃ n le'' _ => .pure (Reply.over_node fun r e => ?_)
    exact le'' r (le' r (ht.find? e))
  | .record name a b merged =>
    refine (memo name).bind fun g₁ t le₁ ht => (node a).bind fun g₂ m le₂ hm =>
      (node b).bind fun g₃ n le₃ hn => (node merged).bind fun g₄ r le₄ hr => ?_
    have stored : MergeTable.Over g₄ (Memo.store t m n r) :=
      ((ht.mono le₂).mono (Graph.le_trans le₃ le₄)).store (le₄ m (le₃ m hm)) (le₄ n hn) hr
    exact (putMemo rfl stored).bind fun _ _ _ _ => .pure trivial
  | .clearMemo name =>
    exact (memo name).bind fun _ _ _ _ => (putMemo rfl MergeTable.over_empty).bind
      fun _ _ _ _ => .pure trivial
  | .newPool => exact .pure ⟨rfl, rfl⟩
  | .intern name n =>
    refine (pool name).bind fun g₁ p le hp => (node n).bind fun g₂ m le' hm => ?_
    refine (onPool rfl (by nofun) (hp.mono le') Trail.over_empty (intern hm)).mayFail.bind
      fun g₃ c _ hc => ?_
    exact (pool name).bind fun _ _ le'' _ => .pure (le'' c hc.1)
  | .lookUp name n =>
    refine (pool name).bind fun g₁ p le hp => (node n).bind fun g₂ m le' hm => .pure ?_
    exact Reply.over_node fun c e => ((hp.mono le').find? hm e).1
  | .clearPool name =>
    exact (pool name).bind fun _ _ _ _ => (putPool rfl Pool.over_empty).bind
      fun _ _ _ _ => .pure trivial
  | .share name trail n =>
    refine (pool name).bind fun g₁ p le₁ hp => (node n).bind fun g₂ m le₂ hm => ?_
    cases trail with
    | none =>
      refine (shareSized rfl (by nofun) (hp.mono le₂) Trail.over_empty hm).bind fun g₃ r _ hr => ?_
      exact (pool name).bind fun _ _ le₄ _ => .pure (le₄ r.1 hr)
    | some trail =>
      refine (Grows.trail trail).bind fun g₃ t le₃ ht => ?_
      refine (shareSized rfl (fun _ e => e) ((hp.mono le₂).mono le₃) ht (le₃ m hm)).bind
        fun g₄ r _ hr => ?_
      exact (pool name).bind fun _ _ le₅ _ => .pure (le₅ r.1 hr)
  | .newTrail => exact .pure ⟨rfl, rfl⟩
  | .clearTrail name =>
    exact (trail name).bind fun _ _ _ _ => (putTrail rfl Trail.over_empty).bind
      fun _ _ _ _ => .pure trivial
  | .newNetwork => exact .pure trivial
  | .addStates name rules =>
    exact (network name).bind fun _ _ _ _ => putNetwork.bind fun _ _ _ _ => .pure trivial
  | .addTransition name source target transition =>
    exact (network name).bind fun _ _ _ _ => lift.mayFail.bind fun _ _ _ _ =>
      putNetwork.bind fun _ _ _ _ => .pure trivial
  | .startStack => exact .pure trivial
  | .invoke name states => exact (stack name).bind fun _ _ _ _ => .pure trivial
  | .convert name calls =>
    refine (network name).bind fun g₁ net _ _ => ?_
    cases calls with
    | none => exact (toNode net []).bind fun _ _ _ hn => .pure hn
    | some calls =>
      exact (stack calls).bind fun _ calls _ _ => (toNode net calls).bind fun _ _ _ hn => .pure hn
  | .convertCalls name calls =>
    exact (network name).bind fun _ net _ _ => (toNode net calls).bind fun _ _ _ hn => .pure hn

/-- What a reply brings is bound. -/
theorem bindTo {command : Command} {reply : Reply} (h : reply.Over g command) (name : String) :
    Grows True (SessionUpkeep.but (command.writes (some name)) old).toUpkeep g (reply.bindTo name)
      fun _ _ => True := by
  cases reply with
  | done => exact .pure trivial
  | node o =>
    cases o with
    | none => exact .pure trivial
    | some n => exact putNode h
  | merged n size => exact putNode h
  | interned n size => exact putNode h
  | shared n size trailSize => exact putNode h
  | recorded size => exact .pure trivial
  | states indices => exact .pure trivial
  | memo t =>
    obtain ⟨rfl, rfl⟩ := h
    exact putMemo rfl MergeTable.over_empty
  | pool p =>
    obtain ⟨rfl, rfl⟩ := h
    exact putPool rfl Pool.over_empty
  | trail t =>
    obtain ⟨rfl, rfl⟩ := h
    exact putTrail rfl Trail.over_empty
  | network net => exact putNetwork
  | stack calls => exact putStack

theorem perform (command : Command) (name : Option String) :
    Grows True (SessionUpkeep.but (command.writes name) old).toUpkeep g
      (Session.perform command name) fun _ _ => True := by
  unfold Session.perform
  refine (run command).bind fun g₁ reply _ h => ?_
  cases name with
  | none => exact .pure trivial
  | some name => exact (bindTo h name).bind fun _ _ _ _ => .pure trivial

end Commands

end Grows

end StackGraph
