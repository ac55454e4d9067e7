import StackGraph.Proofs.FineMerging
import StackGraph.Proofs.FineSharing
import StackGraph.Proofs.Sessions

/-!
# Sessions keep their nodes in shape

Whatever was done in a session, by commands that succeeded or failed, everything that it keeps is
fine: the nodes that have a name, the pairs and merges of memos, the nodes of pools, and both sides of
trails. Only two commands can put something below a slot of the bottom state, and where none of them
did, nothing lies there.

* `Bindings.Fine`, `Reply.Fine` -- named values, and the value of a reply, of fine nodes;
* `Command.FillsEnd` -- the commands that put something below the bottom state;
* `Maintains.run` -- **one command**, case by case;
* `Session.fine_step` -- a step;
* `Node.InShape`, `Session.Keeps` -- what a node of a session satisfies, and what a session keeps;
* `Session.Course`, `Session.Course.fine` -- the sessions that can come about, and what they have;
* `Session.kept_nodes_are_in_shape` -- **every node below anything that a session keeps is in shape**.
-/

namespace StackGraph

open Node

variable {plain : Prop}

/-! ## 1. Values of a session -/

/-- Everything that is named consists of fine nodes. -/
structure Bindings.Fine (plain : Prop) (b : Bindings) : Prop where
  nodes : b.nodes.Every fun _ n => n.Fine plain
  memos : b.memos.Every fun _ t => MergeTable.Fine plain t
  pools : b.pools.Every fun _ p => p.Fine plain
  trails : b.trails.Every fun _ t => t.Fine plain

theorem Bindings.fine_start : Bindings.start.Fine plain where
  nodes := Table.every_empty.insert_value fine_empty
  memos := Table.every_empty
  pools := Table.every_empty
  trails := Table.every_empty

theorem Bindings.Fine.putSharing {b : Bindings} (h : b.Fine plain) {x : Sharing}
    (hx : x.Fine plain) (name : String) (trail : Option String) :
    (b.putSharing x name trail).Fine plain where
  nodes := h.nodes
  memos := h.memos
  pools := h.pools.insert_value hx.pool
  trails := by
    cases trail with
    | none => exact h.trails
    | some trail => exact h.trails.insert_value hx.trail

/-- What a reply brings consists of fine nodes. -/
def Reply.Fine (plain : Prop) : Reply → Prop
  | .node (some n) => n.Fine plain
  | .merged n _ => n.Fine plain
  | .interned n _ => n.Fine plain
  | .shared n _ _ => n.Fine plain
  | .memo t => MergeTable.Fine plain t
  | .pool p => p.Fine plain
  | .trail t => t.Fine plain
  | _ => True

theorem Reply.fine_node {o : Option Node} (h : ∀ n, o = some n → n.Fine plain) :
    (Reply.node o).Fine plain := by
  cases o with
  | none => trivial
  | some n => exact h n rfl

/-- The commands that put something below a slot of the bottom state when they succeed. -/
def Command.FillsEnd : Command → Prop
  | .ofLists states parents => ∃ name, (State.bottom, some name) ∈ states.zip parents
  | .tower _ states depth => depth ≠ 0 ∧ State.bottom ∈ states
  | _ => False

/-! ## 2. Commands -/

namespace Maintains

variable {fails : Prop} {α : Type}

/-- The value of a name. -/
theorem named {field : Bindings → Table String α} {P : α → Prop} {name : String}
    (h : ∀ b a, b.Fine plain → (field b).find? name = some a → P a) :
    Maintains True (Bindings.Fine plain)
      (do GraphM.lift ((field (← GraphM.table)).need name)) P := by
  refine table.bind fun b hb => ?_
  unfold Table.need
  cases found : (field b).find? name with
  | none => exact .throw trivial
  | some a => exact .pure (h b a hb found)

theorem node (name : String) :
    Maintains True (Bindings.Fine plain) (SessionM.node name) fun n => n.Fine plain :=
  named fun _ _ hb => hb.nodes.find?_value

theorem memo (name : String) :
    Maintains True (Bindings.Fine plain) (SessionM.memo name) (MergeTable.Fine plain) :=
  named fun _ _ hb => hb.memos.find?_value

theorem pool (name : String) :
    Maintains True (Bindings.Fine plain) (SessionM.pool name) (Pool.Fine plain) :=
  named fun _ _ hb => hb.pools.find?_value

theorem trail (name : String) :
    Maintains True (Bindings.Fine plain) (SessionM.trail name) (Trail.Fine plain) :=
  named fun _ _ hb => hb.trails.find?_value

theorem network (name : String) :
    Maintains True (Bindings.Fine plain) (SessionM.network name) fun _ => True :=
  named fun _ _ _ _ => trivial

theorem stack (name : String) :
    Maintains True (Bindings.Fine plain) (SessionM.stack name) fun _ => True :=
  named fun _ _ _ _ => trivial

/-- The node of a name that may be missing, and is missing only where no name is given. -/
theorem node? (name : Option String) :
    Maintains True (Bindings.Fine plain) (SessionM.node? name) fun o =>
      (name = none → o = none) ∧ ∀ n, o = some n → n.Fine plain := by
  cases name with
  | none => exact .pure ⟨fun _ => rfl, nofun⟩
  | some name => exact .map ((node name).weaken fun n hn => ⟨nofun, fun m e => Option.some.inj e ▸ hn⟩)

theorem putNode {name : String} {n : Node} (hn : n.Fine plain) :
    Maintains fails (Bindings.Fine plain) (SessionM.putNode name n) fun _ => True :=
  change fun _ hb => { hb with nodes := hb.nodes.insert_value hn }

theorem putMemo {name : String} {t : MergeTable} (ht : MergeTable.Fine plain t) :
    Maintains fails (Bindings.Fine plain) (SessionM.putMemo name t) fun _ => True :=
  change fun _ hb => { hb with memos := hb.memos.insert_value ht }

theorem putPool {name : String} {p : Pool} (hp : p.Fine plain) :
    Maintains fails (Bindings.Fine plain) (SessionM.putPool name p) fun _ => True :=
  change fun _ hb => { hb with pools := hb.pools.insert_value hp }

theorem putTrail {name : String} {t : Trail} (ht : t.Fine plain) :
    Maintains fails (Bindings.Fine plain) (SessionM.putTrail name t) fun _ => True :=
  change fun _ hb => { hb with trails := hb.trails.insert_value ht }

theorem putNetwork {name : String} {net : Network} :
    Maintains fails (Bindings.Fine plain) (SessionM.putNetwork name net) fun _ => True :=
  change fun _ hb => { hb with }

theorem putStack {name : String} {calls : CallStack} :
    Maintains fails (Bindings.Fine plain) (SessionM.putStack name calls) fun _ => True :=
  change fun _ hb => { hb with }

/-- A computation on a pool and a trail that are kept under their names. -/
theorem onPool {name : String} {p : Pool} {trail : Option String} {t : Trail}
    {act : GraphM Sharing α} {post : α → Prop} (hp : p.Fine plain) (ht : t.Fine plain)
    (h : Maintains fails (Sharing.Fine plain) act post) :
    Maintains fails (Bindings.Fine plain) (SessionM.onPool name p trail t act) post :=
  within (fun _ _ => ⟨hp, ht⟩) (fun _ _ hx hb => hb.putSharing hx name trail) h

/-- A merge with any memo or with none. -/
theorem runMerge {mode : Mode} {memo : Option String} {nodes : List Node}
    (h : ∀ n ∈ nodes, n.Fine plain) :
    Maintains True (Bindings.Fine plain) (Command.runMerge mode memo nodes)
      fun r => r.Fine plain := by
  cases memo with
  | none =>
    have merged : Maintains False (fun _ : Unit => True) (StackGraph.mergeAll mode nodes) _ :=
      mergeAll FineMemo.nothing h
    have plainly : Maintains True (Bindings.Fine plain)
        (SessionM.plain (StackGraph.mergeAll mode nodes)) _ :=
      within (fun _ _ => trivial) (fun _ _ _ hb => hb) merged.mayFail
    exact plainly.bind fun n hn => .pure hn
  | some name =>
    refine (Maintains.memo name).bind fun t ht => ?_
    have onMemo : Maintains True (Bindings.Fine plain)
        (SessionM.onMemo name t (StackGraph.mergeAll mode nodes)) _ :=
      within (fun _ _ => ht) (fun _ _ ht' hb => { hb with memos := hb.memos.insert_value ht' })
        (mergeAll FineMemo.table h).mayFail
    exact onMemo.bind fun n hn => (Maintains.memo name).bind fun _ _ => .pure hn

/-- The nodes that a command merges. -/
theorem operands (operands : Operands) :
    Maintains True (Bindings.Fine plain) operands.nodes fun nodes => ∀ n ∈ nodes, n.Fine plain := by
  cases operands with
  | pair a b =>
    exact (node a).bind fun m hm => (node b).bind fun n hn => .pure
      (List.forall_mem_cons.mpr ⟨hm, List.forall_mem_singleton.mpr hn⟩)
  | all names => exact mapM_all fun name _ => node name
  | chains states => exact mapM_all fun states _ => chain fine_empty

/-- A command that merges. -/
theorem merges {mode : Mode} {memo : Option String} (operands : Operands) :
    Maintains True (Bindings.Fine plain) (operands.command mode memo).run fun r => r.Fine plain := by
  rw [Operands.run_command]
  exact (Maintains.operands operands).bind fun nodes h => runMerge h

/-- A node is shared, and the trail is measured. -/
theorem shareSized {name : String} {p : Pool} {trail : Option String} {t : Trail} {n : Node}
    (hp : p.Fine plain) (ht : t.Fine plain) (hn : n.Fine plain) :
    Maintains True (Bindings.Fine plain)
      (SessionM.onPool name p trail t do
        let shared ← StackGraph.share n
        return (shared, (← GraphM.table).trail.size))
      fun r => r.1.Fine plain :=
  onPool hp ht ((share hn).mayFail.bind fun _ hc => table.bind fun _ _ => .pure hc)

/-- **A command keeps everything fine**, and what it replies is fine unless it puts something below
    the bottom state. -/
theorem run (command : Command) :
    Maintains True (Bindings.Fine plain) command.run fun r =>
      (plain → ¬ command.FillsEnd) → r.Fine plain := by
  match command with
  | .bottom => exact .pure fun _ => fine_empty
  | .anotherBottom => exact anotherBottom.mayFail.bind fun n hn => .pure fun _ => hn
  | .push below state =>
    exact (node below).bind fun p hp => (push hp state).mayFail.bind fun n hn => .pure fun _ => hn
  | .chain base states =>
    exact (node base).bind fun p hp => (chain hp).bind fun n hn => .pure fun _ => hn
  | .ofLists states parents =>
    refine (mapM fun name _ => node? name).bind fun nodes h => ?_
    refine (ofLists fun o ho p e => ?_).bind fun n hn => .pure fun bare => hn fun pl o mem => ?_
    · obtain ⟨_, _, _, fine⟩ := exists_of_forall₂ h ho
      exact fine p e
    · obtain ⟨name, mem, none_of, _⟩ := exists_zip_of_forall₂ h mem
      cases name with
      | none => exact none_of rfl
      | some name => exact absurd ⟨name, mem⟩ (bare pl)
  | .tower base states depth =>
    refine (node base).bind fun p hp => (tower hp).bind fun n hn => .pure fun bare => hn ?_
    exact fun pl deep mem => bare pl ⟨deep, mem⟩
  | .parentAt name index =>
    refine (node name).bind fun n hn => lift.mayFail.bind fun slot hs => .pure fun _ => ?_
    exact Reply.fine_node (hn.slot (mem_slots_of_slotAt hs)).below
  | .merge mode memo a b => exact (merges (.pair a b)).weaken fun _ h _ => h
  | .mergeAll mode memo nodes => exact (merges (.all nodes)).weaken fun _ h _ => h
  | .mergeChains mode memo chains => exact (merges (.chains chains)).weaken fun _ h _ => h
  | .newMemo => exact .pure fun _ => MergeTable.fine_empty
  | .recall name a b =>
    refine (memo name).bind fun t ht => (node a).bind fun m _ => (node b).bind fun n _ =>
      .pure fun _ => Reply.fine_node fun r e => ht.find? e
  | .record name a b merged =>
    refine (memo name).bind fun t ht => (node a).bind fun m hm => (node b).bind fun n hn =>
      (node merged).bind fun r hr => ?_
    exact (putMemo (ht.store hm hn hr)).bind fun _ _ => .pure fun _ => trivial
  | .clearMemo name =>
    exact (memo name).bind fun _ _ => (putMemo MergeTable.fine_empty).bind fun _ _ =>
      .pure fun _ => trivial
  | .newPool => exact .pure fun _ => Pool.fine_empty
  | .intern name n =>
    refine (pool name).bind fun p hp => (node n).bind fun m hm => ?_
    refine (onPool hp Trail.fine_empty (intern hm).mayFail).bind fun c hc => ?_
    exact (pool name).bind fun _ _ => .pure fun _ => hc
  | .lookUp name n =>
    exact (pool name).bind fun p hp => (node n).bind fun m _ => .pure fun _ =>
      Reply.fine_node fun c e => hp.find? e
  | .clearPool name =>
    exact (pool name).bind fun _ _ => (putPool Pool.fine_empty).bind fun _ _ =>
      .pure fun _ => trivial
  | .share name trail n =>
    refine (pool name).bind fun p hp => (node n).bind fun m hm => ?_
    cases trail with
    | none =>
      refine (shareSized hp Trail.fine_empty hm).bind fun r hr => ?_
      exact (pool name).bind fun _ _ => .pure fun _ => hr
    | some trail =>
      refine (Maintains.trail trail).bind fun t ht => (shareSized hp ht hm).bind fun r hr => ?_
      exact (pool name).bind fun _ _ => .pure fun _ => hr
  | .newTrail => exact .pure fun _ => Trail.fine_empty
  | .clearTrail name =>
    exact (trail name).bind fun _ _ => (putTrail Trail.fine_empty).bind fun _ _ =>
      .pure fun _ => trivial
  | .newNetwork => exact .pure fun _ => trivial
  | .addStates name rules =>
    exact (network name).bind fun _ _ => putNetwork.bind fun _ _ => .pure fun _ => trivial
  | .addTransition name source target transition =>
    exact (network name).bind fun _ _ => lift.mayFail.bind fun _ _ => putNetwork.bind fun _ _ =>
      .pure fun _ => trivial
  | .startStack => exact .pure fun _ => trivial
  | .invoke name states => exact (stack name).bind fun _ _ => .pure fun _ => trivial
  | .convert name calls =>
    refine (network name).bind fun net _ => ?_
    cases calls with
    | none =>
      have nothing : Maintains True (Bindings.Fine plain) (pure [] : SessionM CallStack)
          fun _ => True := .pure trivial
      exact nothing.bind fun calls _ => (toNode net calls).bind fun n hn => .pure fun _ => hn
    | some calls =>
      exact (stack calls).bind fun calls _ => (toNode net calls).bind fun n hn => .pure fun _ => hn
  | .convertCalls name calls =>
    exact (network name).bind fun net _ => (toNode net calls).bind fun n hn => .pure fun _ => hn

/-- What a reply brings is bound. -/
theorem bindTo {reply : Reply} (h : reply.Fine plain) (name : String) :
    Maintains False (Bindings.Fine plain) (reply.bindTo name) fun _ => True := by
  cases reply with
  | node o =>
    cases o with
    | none => exact .pure trivial
    | some n => exact putNode h
  | merged n size => exact putNode h
  | interned n size => exact putNode h
  | shared n size trailSize => exact putNode h
  | memo t => exact putMemo h
  | pool p => exact putPool h
  | trail t => exact putTrail h
  | network net => exact putNetwork
  | stack calls => exact putStack
  | done => exact .pure trivial
  | recorded size => exact .pure trivial
  | states indices => exact .pure trivial

end Maintains

/-! ## 3. Runs -/

namespace Session

variable {s : Session} {command : Command} {name : Option String}

/-- **A step keeps everything fine**, when a command that would put something below the bottom state
    fails. -/
theorem fine_step (h : s.table.Fine plain)
    (fails : plain → command.FillsEnd → ∃ failure, (s.step command name).1 = .error failure) :
    (s.step command name).2.table.Fine plain := by
  have kept : Maintains True (Bindings.Fine plain) command.run _ := Maintains.run command
  have ran := kept s.ready h
  cases e : command.run s.ready with
  | error failure s' =>
    rw [e] at ran
    rw [step_of_error e]
    exact ran.2
  | ok reply s' =>
    rw [e] at ran
    have fine : reply.Fine plain := ran.2 fun pl fills => by
      obtain ⟨failure, failed⟩ := fails pl fills
      exact nomatch (congrArg Prod.fst (step_of_reply e)).symm.trans failed
    rw [step_of_reply e]
    cases name with
    | none => exact ran.1
    | some name =>
      obtain ⟨_, after, run, hafter, _⟩ := (Maintains.bindTo fine name).succeeds ran.1
      rw [bindReply_run run]
      exact hafter

end Session

/-! ## 4. The shape of nodes -/

namespace Node

/-- The key that is computed from what a node holds. -/
def keyOfSlots : Node → Key
  | .bottom _ => Key.bottom
  | .frame _ _ state parent => Key.frame state parent.key
  | .choice _ _ slots => Key.choice (slots.map (Slot.map key))

/-- What a node satisfies by itself: no frame is of the bottom state; a choice has two slots or more;
    the states ascend strictly, and there are as many as there are places for what lies below; where
    nothing lies below, the state is the bottom, and the slot is the last one; the key is the one of
    what the node holds; and stacks end here exactly when the bottom is one of the states. -/
structure InShape (n : Node) : Prop where
  frame : n.kind = .frame → State.bottom ∉ n.states
  choice : n.kind = .choice → 2 ≤ n.slots.length
  ascending : n.states.Pairwise (· < ·)
  paired : (n.slots.map (·.parent)).length = n.states.length
  orphan : ∀ i (h : i < n.slots.length), n.slots[i].parent = none →
    n.slots[i].state = State.bottom ∧ i + 1 = n.slots.length
  key : n.key = n.keyOfSlots
  endsHere : n.endsHere = true ↔ State.bottom ∈ n.states

variable {n : Node}

/-- In an ascending list the bottom is the last state. -/
theorem Sound.eq_last_of_bottom (h : n.Sound) {i : Nat} (hi : i < n.slots.length)
    (e : n.slots[i].state = State.bottom) : i + 1 = n.slots.length := by
  refine Nat.le_antisymm hi (Nat.le_of_not_lt fun lt => State.not_bottom_lt n.slots[i + 1].state ?_)
  have asc := List.pairwise_iff_getElem.mp (List.pairwise_map.mp h.normal.ascending)
  exact e ▸ asc i (i + 1) hi lt (Nat.lt_succ_self i)

/-- The bottom is one of the states exactly when it is the last one. -/
theorem Sound.endsHere_iff (h : n.Sound) : n.endsHere = true ↔ State.bottom ∈ n.states := by
  have last : n.slots.getLast? = some (n.slots.getLast h.normal.ne_nil) :=
    List.getLast?_eq_getLast_of_ne_nil h.normal.ne_nil
  unfold endsHere
  rw [last, Option.any_some, beq_iff_eq]
  constructor
  · exact fun e => Slot.mem_states.mpr ⟨_, List.getLast_mem h.normal.ne_nil, e⟩
  · intro mem
    obtain ⟨s, hs, e⟩ := Slot.mem_states.mp mem
    obtain ⟨i, hi, rfl⟩ := List.mem_iff_getElem.mp hs
    have here := h.eq_last_of_bottom hi e
    rw [List.getLast_eq_getElem]
    simpa [← here] using e

/-- **A sound node is in shape.** -/
theorem Sound.inShape (h : n.Sound) : n.InShape where
  frame kind mem := by
    cases n with
    | frame i k x p => exact h.1 (List.mem_singleton.mp mem).symm
    | bottom i => cases kind
    | choice i k slots => cases kind
  choice kind := by
    cases n with
    | choice i k slots => exact h.1
    | bottom i => cases kind
    | frame i k x p => cases kind
  ascending := h.normal.ascending
  paired := by simp [states, Slot.states]
  orphan i hi e := by
    have bottom : n.slots[i].state = State.bottom := by
      by_contra ne
      exact h.normal.no_orphan _ (List.getElem_mem hi) ⟨e, ne⟩
    exact ⟨bottom, h.eq_last_of_bottom hi bottom⟩
  key := by
    cases n with
    | bottom i => rfl
    | frame i k x p => exact h.2
    | choice i k slots => exact h.2.2
  endsHere := h.endsHere_iff

end Node

namespace Session

variable {s : Session} {n : Node}

/-- The session keeps the node: it has a name, or it stands in a memo, in a pool or on a trail that
    has one. -/
inductive Keeps (s : Session) : Node → Prop where
  | node {name : String} {n : Node} (h : s.table.nodes.find? name = some n) : Keeps s n
  | memo {name : String} {t : MergeTable} {e : (Node × Node) × Node} {n : Node}
    (h : s.table.memos.find? name = some t) (he : e ∈ t.entries)
    (hn : n = e.1.1 ∨ n = e.1.2 ∨ n = e.2) : Keeps s n
  | pool {name : String} {p : Pool} {n : Node} (h : s.table.pools.find? name = some p)
    (hn : n ∈ p.nodes) : Keeps s n
  | trail {name : String} {t : Trail} {step : Node × Node} {n : Node}
    (h : s.table.trails.find? name = some t) (hs : step ∈ t.steps)
    (hn : n = step.1 ∨ n = step.2) : Keeps s n

/-- What a session with fine values keeps is fine. -/
theorem Keeps.fine (h : s.table.Fine plain) (kept : s.Keeps n) : n.Fine plain := by
  cases kept with
  | node found => exact h.nodes.find?_value found
  | memo found he hn =>
    obtain ⟨⟨left, right⟩, merged⟩ := h.memos.find?_value found _ he
    rcases hn with rfl | rfl | rfl
    · exact left
    · exact right
    · exact merged
  | pool found hn => exact h.pools.find?_value found _ hn
  | trail found hs hn =>
    obtain ⟨left, right⟩ := h.trails.find?_value found _ hs
    rcases hn with rfl | rfl
    · exact left
    · exact right

/-- The sessions that can come about by commands and by merges of what is kept with a memo of any
    kind that answers with fine nodes. Under `plain`, every command fails that would put something
    below a slot of the bottom state. -/
inductive Course (plain : Prop) : Session → Prop where
  | start : Course plain start
  | step {s : Session} (h : Course plain s) (command : Command) (name : Option String)
    (fails : plain → command.FillsEnd → ∃ failure, (s.step command name).1 = .error failure) :
    Course plain (s.step command name).2
  | mergeWith {s : Session} (h : Course plain s) {μ : Type} [Memo μ] {fine : μ → Prop}
    (memo : FineMemo plain fine) {mode : Mode} {a b r : Node} {t : μ} {after : Arena μ}
    (ha : s.Keeps a) (hb : s.Keeps b) (ht : fine t)
    (run : merge mode a b ⟨s.next, #[], t⟩ = .ok r after) (name : Option String) :
    Course plain (bindNode { s with next := after.next } name r)

/-- Every list of commands is a course. -/
theorem Course.of_replay {commands : List (Command × Option String)}
    (fails : plain → ∀ before c after, commands = before ++ c :: after → c.1.FillsEnd →
      ∃ failure, ((replay before).step c.1 c.2).1 = .error failure) :
    Course plain (replay commands) := by
  induction commands using List.reverseRecOn with
  | nil => exact .start
  | append_singleton before c ih =>
    rw [show replay (before ++ [c]) = ((replay before).step c.1 c.2).2 from List.foldl_append]
    refine (ih fun pl before' c' after e => ?_).step c.1 c.2 fun pl => fails pl before c [] rfl
    exact fails pl before' c' (after ++ [c]) (by rw [e, List.append_assoc, List.cons_append])

/-- **On every course everything that has a name is fine.** -/
theorem Course.fine (h : Course plain s) : s.table.Fine plain := by
  induction h with
  | start => exact Bindings.fine_start
  | step _ command name fails ih => exact fine_step ih fails
  | @mergeWith s _ μ _ fine memo mode a b r t after ha hb ht run name ih =>
    have merges : Maintains False fine (merge mode a b) _ := .merge memo (ha.fine ih) (hb.fine ih)
    have merged := merges ⟨s.next, #[], t⟩ ht
    rw [run] at merged
    cases name with
    | none => exact ih
    | some name => exact { ih with nodes := ih.nodes.insert_value merged.2 }

/-- **Every node below anything that a session keeps is in shape.** On a course on which nothing is
    put below a slot of the bottom state, nothing lies below any such slot. -/
theorem kept_nodes_are_in_shape (h : Course plain s) :
    ∀ n, s.Keeps n → ∀ m, Reaches n m → m.InShape ∧
      (plain → ∀ s ∈ m.slots, s.state = State.bottom → s.parent = none) := by
  intro n kept m r
  obtain ⟨sound, bare⟩ := kept.fine h.fine m r
  exact ⟨sound.inShape, bare⟩

/-- A session in which a memo is told a wrong merge, and what the memo answers is shared. -/
def misled : List (Command × Option String) :=
  sample ++ [(.newMemo, some "memo"), (.record "memo" "a" "c" "b", none),
    (.merge .exact (some "memo") "c" "a", some "wrong"),
    (.share "pool" (some "trail") "wrong", some "kept")]

/-- A command that would put a node below the bottom state, and fails. -/
def refused : Command × Option String := (.ofLists [State.bottom] [some "kept"], some "bad")

theorem course_misled : Course True (replay (misled ++ [refused])) := by
  have fills_none : ∀ c ∈ misled, ¬ c.1.FillsEnd := by
    simp [misled, sample, Command.FillsEnd]
  refine .of_replay fun _ before c after e fills => ?_
  rcases List.eq_nil_or_concat after with rfl | ⟨after, last, rfl⟩
  · obtain ⟨rfl, same⟩ := List.append_inj' e rfl
    obtain rfl := List.singleton_inj.mp same
    have failed : ((replay misled).step refused.1 refused.2).1.toBool = false := by
      decide +kernel
    cases step : ((replay misled).step refused.1 refused.2).1 with
    | error failure => exact ⟨failure, rfl⟩
    | ok reply => simp [step, Except.toBool] at failed
  · have e : misled ++ [refused] = (before ++ c :: after) ++ [last] := by simpa using e
    have mem : c ∈ misled := by
      rw [(List.append_inj' e rfl).1]
      exact List.mem_append_right _ List.mem_cons_self
    exact absurd fills (fills_none c mem)

theorem kept_nodes_are_in_shape_misled :
    ∃ s n r, Course True s ∧ s.table.nodes.find? "kept" = some n ∧ n.kind = .choice ∧ n.InShape ∧
      (∀ s ∈ n.slots, s.state = State.bottom → s.parent = none) ∧
      s.table.nodes.find? "answer" = some r ∧ r.InShape := by
  have kind : ((replay (misled ++ [refused])).table.nodes.find? "kept").map Node.kind =
      some .choice := by
    decide +kernel
  have named : ((replay (misled ++ [refused])).table.nodes.find? "a").isSome = true := by
    decide +kernel
  obtain ⟨n, found, kind⟩ := Option.map_eq_some_iff.mp kind
  obtain ⟨a, found'⟩ := Option.isSome_iff_exists.mp named
  have keeps : (replay (misled ++ [refused])).Keeps n := .node found
  have keeps' : (replay (misled ++ [refused])).Keeps a := .node found'
  have fine := course_misled.fine
  -- a memo that always answers with the shared node is asked for a merge with it
  have merges : Maintains False (fun t : Stubborn => t.answer.Fine True) (merge .exact a n) _ :=
    .merge .stubborn (keeps'.fine fine) (keeps.fine fine)
  obtain ⟨r, after, run, _⟩ :=
    merges.succeeds (s := ⟨(replay (misled ++ [refused])).next, #[], ⟨n⟩⟩) (keeps.fine fine)
  have course := course_misled.mergeWith FineMemo.stubborn keeps' keeps (keeps.fine fine) run
    (some "answer")
  have other : ("answer" == "kept") = false := by decide
  have kept := (Table.find?_insert_of_ne _ other r).trans found
  have answer := Table.find?_insert_self (replay (misled ++ [refused])).table.nodes "answer" r
  obtain ⟨shape, bare⟩ := kept_nodes_are_in_shape course n (.node kept) n (.refl n)
  exact ⟨_, n, r, course, kept, kind, shape, bare trivial, answer,
    (kept_nodes_are_in_shape course r (.node answer) r (.refl r)).1⟩

end Session

end StackGraph
