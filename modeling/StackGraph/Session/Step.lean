import StackGraph.Session.Basic

/-!
# Commands of a session

A command makes a value or changes one; a query, which does neither, is a function on the values
and needs no command. A step runs one command and binds what it made, when a name is given. A
command that fails binds nothing, but what it did before it failed stays.

* `Command` -- the commands.
* `Reply` -- what a command tells.
* `Command.run` -- runs a command.
* `Session.step` -- runs a command with an empty journal and binds its result.
* `Session.replay` -- runs a list of commands.
-/

namespace StackGraph

/-- What can be done in a session. Values are given by name. -/
inductive Command where
  /-- The common bottom. -/
  | bottom
  /-- A bottom beside the common one. -/
  | anotherBottom
  /-- One state over a node. -/
  | push (below : String) (state : State)
  /-- States pushed one over the other. -/
  | chain (base : String) (states : List State)
  /-- A node from its states and parents. -/
  | ofLists (states : List State) (parents : List (Option String))
  /-- Levels of a choice over one shared node. -/
  | tower (base : String) (states : List State) (depth : Nat)
  /-- What lies below a slot of a node. -/
  | parentAt (node : String) (index : Nat)
  /-- The merge of two nodes. -/
  | merge (mode : Mode) (memo : Option String) (a b : String)
  /-- The merge of a list of nodes. -/
  | mergeAll (mode : Mode) (memo : Option String) (nodes : List String)
  /-- The merge of a list of chains over the common bottom, each given by its states. All chains are
      made before the memo is looked for. -/
  | mergeChains (mode : Mode) (memo : Option String) (chains : List (List State))
  /-- A memo that knows nothing. -/
  | newMemo
  /-- What a memo knows of a pair. -/
  | recall (memo a b : String)
  /-- Tells a memo the merge of a pair. -/
  | record (memo a b merged : String)
  /-- Lets a memo forget everything. -/
  | clearMemo (memo : String)
  /-- A pool without nodes. -/
  | newPool
  /-- Puts a node into a pool. -/
  | intern (pool node : String)
  /-- The node of a pool that has the structure of a node. -/
  | lookUp (pool node : String)
  /-- Takes all nodes out of a pool. -/
  | clearPool (pool : String)
  /-- Shares a node and all below it in a pool. -/
  | share (pool : String) (trail : Option String) (node : String)
  /-- A trail without nodes. -/
  | newTrail
  /-- Lets a trail forget everything. -/
  | clearTrail (trail : String)
  /-- A network without states. -/
  | newNetwork
  /-- Adds a state for each rule to a network. -/
  | addStates (network : String) (rules : List Rule)
  /-- Adds a transition to a network. -/
  | addTransition (network : String) (source target : State) (transition : Transition)
  /-- The call stack of a start rule. -/
  | startStack
  /-- A call stack after further calls. -/
  | invoke (stack : String) (states : List State)
  /-- The node of a named call stack, or of no call at all. -/
  | convert (network : String) (stack : Option String)
  /-- The node of a call stack that is given call by call, innermost first. -/
  | convertCalls (network : String) (stack : CallStack)

/-- What a command tells. -/
inductive Reply where
  /-- It is done. -/
  | done
  /-- A node, if there is one. -/
  | node (n : Option Node)
  /-- A merge, and the size of the memo, if one was used. -/
  | merged (n : Node) (memoSize : Option Nat)
  /-- A node of a pool, and the size of the pool. -/
  | interned (n : Node) (poolSize : Nat)
  /-- A shared node, and the sizes of the pool and of the trail. -/
  | shared (n : Node) (poolSize trailSize : Nat)
  /-- The size of a memo. -/
  | recorded (memoSize : Nat)
  /-- The indices of new states. -/
  | states (indices : List Nat)
  /-- A new memo. -/
  | memo (t : MergeTable)
  /-- A new pool. -/
  | pool (p : Pool)
  /-- A new trail. -/
  | trail (t : Trail)
  /-- A new network. -/
  | network (net : Network)
  /-- A new call stack. -/
  | stack (s : CallStack)

namespace Command

/-- Merges a list of nodes with a memo, or without one. -/
def runMerge (mode : Mode) (memo : Option String) (nodes : List Node) : SessionM Reply := do
  match memo with
  | none =>
    let n ← SessionM.plain (StackGraph.mergeAll mode nodes)
    return .merged n none
  | some name =>
    let t ← SessionM.memo name
    let n ← SessionM.onMemo name t (StackGraph.mergeAll mode nodes)
    return .merged n (some (← SessionM.memo name).size)

/-- Runs a command. -/
def run : Command → SessionM Reply
  | .bottom => return .node (some Node.empty)
  | .anotherBottom => return .node (some (← Node.anotherBottom))
  | .push below state => do
    return .node (some (← Node.push (← SessionM.node below) state))
  | .chain base states => do
    return .node (some (← Node.chain (← SessionM.node base) states))
  | .ofLists states parents => do
    let parents ← parents.mapM SessionM.node?
    return .node (some (← Node.ofLists states parents))
  | .tower base states depth => do
    return .node (some (← Node.tower (← SessionM.node base) states depth))
  | .parentAt node index => do
    let slot ← GraphM.lift ((← SessionM.node node).slotAt index)
    return .node slot.parent
  | .merge mode memo a b => do
    let a ← SessionM.node a
    let b ← SessionM.node b
    runMerge mode memo [a, b]
  | .mergeAll mode memo nodes => do
    runMerge mode memo (← nodes.mapM SessionM.node)
  | .mergeChains mode memo chains => do
    runMerge mode memo (← chains.mapM (Node.chain Node.empty))
  | .newMemo => return .memo .empty
  | .recall memo a b => do
    let t ← SessionM.memo memo
    return .node (Memo.find? t (← SessionM.node a) (← SessionM.node b))
  | .record memo a b merged => do
    let t ← SessionM.memo memo
    let t := Memo.store t (← SessionM.node a) (← SessionM.node b) (← SessionM.node merged)
    SessionM.putMemo memo t
    return .recorded t.size
  | .clearMemo memo => do
    let _ ← SessionM.memo memo
    SessionM.putMemo memo .empty
    return .done
  | .newPool => return .pool .empty
  | .intern pool node => do
    let p ← SessionM.pool pool
    let n ← SessionM.node node
    let n ← SessionM.onPool pool p none .empty (StackGraph.intern n)
    return .interned n (← SessionM.pool pool).size
  | .lookUp pool node => do
    let p ← SessionM.pool pool
    return .node (p.find? (← SessionM.node node))
  | .clearPool pool => do
    let _ ← SessionM.pool pool
    SessionM.putPool pool .empty
    return .done
  | .share pool trail node => do
    let p ← SessionM.pool pool
    let n ← SessionM.node node
    let t ← match trail with
      | some name => SessionM.trail name
      | none => pure .empty
    let (n, trailSize) ← SessionM.onPool pool p trail t do
      let shared ← StackGraph.share n
      return (shared, (← GraphM.table).trail.size)
    return .shared n (← SessionM.pool pool).size trailSize
  | .newTrail => return .trail .empty
  | .clearTrail trail => do
    let _ ← SessionM.trail trail
    SessionM.putTrail trail .empty
    return .done
  | .newNetwork => return .network .empty
  | .addStates network rules => do
    let net ← SessionM.network network
    SessionM.putNetwork network (net.addStates rules)
    return .states (List.range' net.size rules.length)
  | .addTransition network source target transition => do
    let net ← SessionM.network network
    let net ← GraphM.lift ((net.addTransition source target transition).mapError .network)
    SessionM.putNetwork network net
    return .done
  | .startStack => return .stack .start
  | .invoke stack states => do
    return .stack (states.foldl CallStack.invoke (← SessionM.stack stack))
  | .convert network stack => do
    let net ← SessionM.network network
    let calls ← match stack with
      | some name => SessionM.stack name
      | none => pure []
    return .node (some (← CallStack.toNode net calls))
  | .convertCalls network stack => do
    return .node (some (← CallStack.toNode (← SessionM.network network) stack))

end Command

namespace Reply

/-- Binds the value that a reply brings. A reply without a value binds nothing. -/
def bindTo (name : String) : Reply → SessionM Unit
  | .done => pure ()
  | .node none => pure ()
  | .node (some n) => SessionM.putNode name n
  | .merged n _ => SessionM.putNode name n
  | .interned n _ => SessionM.putNode name n
  | .shared n _ _ => SessionM.putNode name n
  | .recorded _ => pure ()
  | .states _ => pure ()
  | .memo t => SessionM.putMemo name t
  | .pool p => SessionM.putPool name p
  | .trail t => SessionM.putTrail name t
  | .network net => SessionM.putNetwork name net
  | .stack s => SessionM.putStack name s

/-- The node that a reply brings. -/
def node? : Reply → Option Node
  | .node n => n
  | .merged n _ => some n
  | .interned n _ => some n
  | .shared n _ _ => some n
  | _ => none

end Reply

namespace Session

/-- Runs a command and binds what it made. -/
def perform (command : Command) (name : Option String) : SessionM Reply := do
  let reply ← command.run
  if let some name := name then
    reply.bindTo name
  return reply

/-- One step of a session: the reply or the failure of a command, and the session afterwards, whose
    journal holds what this command did. -/
def step (s : Session) (command : Command) (name : Option String) :
    Except Failure Reply × Session :=
  match perform command name { s with journal := #[] } with
  | .ok reply after => (.ok reply, after)
  | .error failure after => (.error failure, after)

/-- The session after a list of commands, each with the name for what it makes. -/
def replay (commands : List (Command × Option String)) : Session :=
  commands.foldl (fun s c => (s.step c.1 c.2).2) start

end Session

end StackGraph
