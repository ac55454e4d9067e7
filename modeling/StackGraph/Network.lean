import StackGraph.Failure

/-!
# Transition networks

A network has numbered states, each belonging to a rule, and labelled transitions between them. A
transition that invokes a rule names the state to go on with when the rule is done, its follow
state.

The network keeps its states by 32-bit indices: a state number given to it is cut to its low 32
bits before the state is looked up. Errors name the number as it was given. Follow states are kept
as they are, and they need not be states of the network.

* `Network.index` -- from a state number to the index of the state.
* `Network.addState`, `Network.addTransition` -- a new state has the next index; a transition needs
  two states that exist.
* `Network.transitions` -- the transitions out of a state, the latest first.
* `Network.follow` -- the follow state of the latest transition that invokes a rule.
-/

namespace StackGraph

/-- The number of a rule. -/
abbrev Rule := UInt64

/-- What a transition does. -/
inductive Transition where
  /-- Nothing is read. -/
  | epsilon
  /-- One input symbol is read. -/
  | atom (value : UInt16)
  /-- A rule is invoked, and its end leads to the follow state. -/
  | rule (follow : State)
  deriving DecidableEq, Repr

/-- The follow state of a transition that invokes a rule. -/
def Transition.follow? : Transition → Option State
  | .rule follow => some follow
  | _ => none

/-- A transition between two states, which are given by index. -/
structure Edge where
  source : Nat
  target : Nat
  transition : Transition
  deriving DecidableEq, Repr

/-- A transition network. -/
structure Network where
  /-- The rule of each state, by index. -/
  rules : List Rule
  /-- The transitions, the latest first. -/
  edges : List Edge
  deriving DecidableEq, Repr

namespace Network

/-- The network without states. -/
def empty : Network := ⟨[], []⟩

/-- The index that a state number stands for: its low 32 bits. -/
def index (s : State) : Nat := s.toUInt32.toNat

theorem index_eq_mod (s : State) : index s = s.toNat % 0x100000000 := by
  simp [index]

/-- The number of states. -/
def size (net : Network) : Nat := net.rules.length

/-- Adds a state of the given rule. The new state has the next index. -/
def addState (net : Network) (rule : Rule) : Network := { net with rules := net.rules ++ [rule] }

/-- Adds a state for each rule of the list. -/
def addStates (net : Network) (rules : List Rule) : Network := rules.foldl addState net

/-- The rule of a state. -/
def ruleOf (net : Network) (s : State) : Except NetworkError Rule :=
  match net.rules[index s]? with
  | some rule => .ok rule
  | none => .error (.unknownState s)

/-- A state is known exactly when its index is below the number of states. -/
theorem ruleOf_eq_error_iff {net : Network} {s : State} {e : NetworkError} :
    net.ruleOf s = .error e ↔ net.size ≤ index s ∧ e = .unknownState s := by
  unfold ruleOf size
  split
  · rename_i rule h
    have := (List.getElem?_eq_some_iff.mp h).1
    simp
    omega
  · rename_i h
    have := List.getElem?_eq_none_iff.mp h
    simp only [Except.error.injEq]
    constructor
    · rintro rfl
      exact ⟨this, rfl⟩
    · rintro ⟨_, rfl⟩
      rfl

/-- Adds a transition between two states, of which the first is checked first. -/
def addTransition (net : Network) (source target : State) (transition : Transition) :
    Except NetworkError Network := do
  let _ ← net.ruleOf source
  let _ ← net.ruleOf target
  return { net with edges := ⟨index source, index target, transition⟩ :: net.edges }

/-- The transitions out of a state with the indices they lead to, the latest first. -/
def transitions (net : Network) (s : State) : Except NetworkError (List (Nat × Transition)) := do
  let _ ← net.ruleOf s
  return (net.edges.filter (·.source = index s)).map fun e => (e.target, e.transition)

/-- The state to go on with after the rule that was invoked from `s`. -/
def follow (net : Network) (s : State) : Except NetworkError State := do
  match (← net.transitions s).findSome? (·.2.follow?) with
  | some state => return state
  | none => throw (.noRuleTransition s)

end Network

end StackGraph
