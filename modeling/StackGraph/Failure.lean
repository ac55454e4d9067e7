import StackGraph.Node.Printer

/-!
# What can go wrong

A failure is named by its cause and carries what its message needs.

* `NetworkError` -- an automaton or a call stack that does not fit it.
* `Failure` -- the faults of slot lists and slot indices, broken assumptions of an operation, the
  errors of a network, and names that stand for nothing.
* `NetworkError.message`, `Failure.message` -- all wordings in one place.
-/

namespace StackGraph

/-- A call stack or a state number that does not fit the network it is used with. -/
inductive NetworkError where
  /-- The network has no state of this number. -/
  | unknownState (state : State)
  /-- The state exists, and no transition out of it invokes a rule. -/
  | noRuleTransition (state : State)
  /-- A call other than the outermost does not say from where it was made. -/
  | noInvokingState
  deriving DecidableEq, Repr

/-- The wording of an error. The state is written in digits, also the largest. -/
def NetworkError.message : NetworkError → String
  | .unknownState state => s!"no ATN state numbered {state.toNat}"
  | .noRuleTransition state => s!"ATN state {state.toNat} has no rule transition"
  | .noInvokingState => "non-root call frame has no invoking state"

/-- Why an operation on the graph stopped. -/
inductive Failure where
  /-- The list of states and the list of parents have different lengths. -/
  | lengthsDiffer (states parents : Nat)
  /-- A slot list is empty. -/
  | noSlots
  /-- The return states of a slot list do not ascend strictly. -/
  | unsorted (states : List State)
  /-- A slot of a state other than the bottom has nothing below. -/
  | orphanSlot
  /-- The bottom state was pushed on a node that is no bottom. -/
  | bottomOverFrames (below : Node)
  /-- A frame was asked for a slot other than its only one. -/
  | frameIndex (index : Nat)
  /-- A choice was asked for a slot past its last. -/
  | slotIndex (size index : Nat)
  /-- A slot of a state other than the bottom has nothing below and is to become a node. -/
  | parentless (state : State)
  /-- Two nodes without a choice are to be merged slot by slot. -/
  | noChoice
  /-- A place was reached that no run is to reach. -/
  | unreachable (reason : Option String)
  /-- The network refused. -/
  | network (error : NetworkError)
  /-- The name stands for nothing of the kind that is wanted. -/
  | unbound (name : String)

namespace Failure

/-- The wording for two numbers that should be equal, and what is wrong when they are not. -/
def mismatch (wrong : String) (left right : Nat) : String :=
  s!"assertion `left == right` failed{wrong}\n  left: {left}\n right: {right}"

/-- A list of states in digits, between brackets. -/
def digits (states : List State) : String :=
  "[" ++ String.intercalate ", " (states.map fun s => toString s.toNat) ++ "]"

/-- The wording of a failure. -/
def message : Failure → String
  | .lengthsDiffer states parents => mismatch "" states parents
  | .noSlots => "array context without entries"
  | .unsorted states => "unsorted return states " ++ digits states
  | .orphanSlot => "assertion failed"
  | .bottomOverFrames below => "sentinel frame over " ++ below.text
  | .frameIndex index => mismatch "" index 0
  | .slotIndex size index =>
    s!"index out of bounds: the len is {size} but the index is {index}"
  | .parentless state => mismatch ": parentless frame" state.toNat State.bottom.toNat
  | .noChoice => "assertion failed"
  | .unreachable none => "internal error: entered unreachable code"
  | .unreachable (some reason) => s!"internal error: entered unreachable code: {reason}"
  | .network error => error.message
  | .unbound name => s!"nothing is bound to {name}"

end Failure

end StackGraph
