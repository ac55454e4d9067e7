import StackGraph.Network
import StackGraph.Node.Build

/-!
# Call stacks

The call stack of a running parser is the list of its calls, innermost first. A call names the
state from which it was made; the last call is that of the start rule, whose invoking state does
not matter. The stack becomes a chain of frames over the common bottom: one frame for each call but
the last, with the follow state of the invoking state.

* `CallStack.follows` -- the follow states, innermost first. Calls are resolved from the innermost
  outwards, and the first one that fails decides the error.
* `CallStack.toNode` -- the chain of frames.
-/

namespace StackGraph

/-- The invoking states of the calls of a parser, innermost first. -/
abbrev CallStack := List (Option State)

namespace CallStack

/-- The stack of the start rule alone. -/
def start : CallStack := [none]

/-- The stack after one more call. -/
def invoke (stack : CallStack) (state : State) : CallStack := some state :: stack

/-- The follow state of a call. -/
def resolve (net : Network) : Option State → Except NetworkError State
  | none => .error .noInvokingState
  | some state => net.follow state

/-- The follow states of all calls but the last, innermost first. -/
def follows (net : Network) : CallStack → Except NetworkError (List State)
  | [] => .ok []
  | [_] => .ok []
  | call :: caller :: rest => do
    let state ← resolve net call
    return state :: (← follows net (caller :: rest))

/-- The node of a call stack. Once all calls are resolved, the conversion is reported, and then the
    frames are pushed from the outermost on. -/
def toNode {τ : Type} (net : Network) (stack : CallStack) : GraphM τ Node := do
  let states ← GraphM.lift ((follows net stack).mapError Failure.network)
  GraphM.emit (.converted states.length)
  Node.chain Node.empty states.reverse

end CallStack

end StackGraph
