import StackGraph.CallStack
import StackGraph.Merge.Basic
import StackGraph.Pool.Share

/-!
# Sessions

A session gives names to the values that are worked with. Each kind of value has names of its own,
and a name may be bound again. The node name `$` stands for the common bottom from the start.

* `Bindings` -- the named values.
* `Session` -- the named values with the next free identity and the journal.
* `Session.start` -- where every session begins.
-/

namespace StackGraph

/-- The named values of a session. -/
structure Bindings where
  nodes : Table String Node
  memos : Table String MergeTable
  pools : Table String Pool
  trails : Table String Trail
  networks : Table String Network
  callStacks : Table String CallStack

/-- The state of a session. -/
abbrev Session := Arena Bindings

/-- A computation in a session. -/
abbrev SessionM := GraphM Bindings

/-- The bindings of a new session: `$` is the common bottom. -/
def Bindings.start : Bindings where
  nodes := Table.empty.insert "$" Node.empty
  memos := .empty
  pools := .empty
  trails := .empty
  networks := .empty
  callStacks := .empty

/-- A new session. The identity 0 is that of the common bottom. -/
def Session.start : Session := ⟨1, #[], .start⟩

/-- The value of a name, or the failure that nothing is bound to it. -/
def Table.need {α : Type} (t : Table String α) (name : String) : Except Failure α :=
  match t.find? name with
  | some a => .ok a
  | none => .error (.unbound name)

namespace SessionM

variable {α : Type}

/-- The node of a name. -/
def node (name : String) : SessionM Node := do
  GraphM.lift ((← GraphM.table).nodes.need name)

/-- The memo of a name. -/
def memo (name : String) : SessionM MergeTable := do
  GraphM.lift ((← GraphM.table).memos.need name)

/-- The pool of a name. -/
def pool (name : String) : SessionM Pool := do
  GraphM.lift ((← GraphM.table).pools.need name)

/-- The trail of a name. -/
def trail (name : String) : SessionM Trail := do
  GraphM.lift ((← GraphM.table).trails.need name)

/-- The network of a name. -/
def network (name : String) : SessionM Network := do
  GraphM.lift ((← GraphM.table).networks.need name)

/-- The call stack of a name. -/
def stack (name : String) : SessionM CallStack := do
  GraphM.lift ((← GraphM.table).callStacks.need name)

/-- The node of a name, or nothing where no name is given. -/
def node? : Option String → SessionM (Option Node)
  | none => pure none
  | some name => some <$> node name

/-- Binds a node. -/
def putNode (name : String) (n : Node) : SessionM Unit :=
  GraphM.change fun b => { b with nodes := b.nodes.insert name n }

/-- Binds a memo. -/
def putMemo (name : String) (t : MergeTable) : SessionM Unit :=
  GraphM.change fun b => { b with memos := b.memos.insert name t }

/-- Binds a pool. -/
def putPool (name : String) (p : Pool) : SessionM Unit :=
  GraphM.change fun b => { b with pools := b.pools.insert name p }

/-- Binds a trail. -/
def putTrail (name : String) (t : Trail) : SessionM Unit :=
  GraphM.change fun b => { b with trails := b.trails.insert name t }

/-- Binds a network. -/
def putNetwork (name : String) (net : Network) : SessionM Unit :=
  GraphM.change fun b => { b with networks := b.networks.insert name net }

/-- Binds a call stack. -/
def putStack (name : String) (s : CallStack) : SessionM Unit :=
  GraphM.change fun b => { b with callStacks := b.callStacks.insert name s }

/-- Runs a computation that uses no table. -/
def plain (act : GraphM Unit α) : SessionM α :=
  GraphM.within (fun _ => ()) (fun _ b => b) act

/-- Runs a computation on the memo `t`, which is kept under its name. -/
def onMemo (name : String) (t : MergeTable) (act : GraphM MergeTable α) : SessionM α :=
  GraphM.within (fun _ => t) (fun t b => { b with memos := b.memos.insert name t }) act

/-- Runs a computation on the pool `p`, which is kept under its name, and on a trail that is kept
    when it has a name. -/
def onPool (name : String) (p : Pool) (trailName : Option String) (t : Trail)
    (act : GraphM Sharing α) : SessionM α :=
  GraphM.within (fun _ => ⟨p, t⟩)
    (fun s b =>
      { b with
        pools := b.pools.insert name s.pool
        trails := match trailName with
          | some trailName => b.trails.insert trailName s.trail
          | none => b.trails })
    act

end SessionM

end StackGraph
