import StackGraph.Network

/-!
# How a network was built

A network is built by adding states and transitions to the network without states, one after the
other. A transition that names a state which is not there yet is refused and changes nothing. So the
transitions of a network are those that were accepted, the latest first, and the follow state of a
state is the one of the last transition accepted out of it that invokes a rule.

* `Network.change`, `Network.built` -- one change, and the network of a list of changes;
* `Network.added` -- the transitions that are accepted, in the order in which they are added;
* `Network.rules_foldl`, `Network.edges_foldl` -- **what a network holds after any changes**;
* `Network.follow_built` -- **the follow state is the latest one**.
-/

namespace StackGraph

namespace Network

/-- A change of a network. -/
inductive Change where
  /-- A state of the given rule is added. -/
  | state (rule : Rule)
  /-- A transition is added, if both states are there. -/
  | transition (source target : State) (transition : Transition)
  deriving DecidableEq, Repr

namespace Change

/-- The rule of the state that is added. -/
def rule? : Change → Option Rule
  | .state rule => some rule
  | .transition _ _ _ => none

end Change

/-- The network after a change. A transition that is refused changes nothing. -/
def change (net : Network) : Change → Network
  | .state rule => net.addState rule
  | .transition source target transition =>
    match net.addTransition source target transition with
    | .ok net => net
    | .error _ => net

/-- The network that a list of changes builds. -/
def built (changes : List Change) : Network := changes.foldl change empty

/-- The transitions that changes add to a network of `size` states, in the order of the changes. -/
def added (size : Nat) : List Change → List Edge
  | [] => []
  | .state _ :: rest => added (size + 1) rest
  | .transition source target transition :: rest =>
    if index source < size ∧ index target < size then
      ⟨index source, index target, transition⟩ :: added size rest
    else added size rest

/-- The follow state of the last transition added out of a state that invokes a rule. -/
def lastFollow? (changes : List Change) (s : State) : Option State :=
  (((added 0 changes).filter (·.source = index s)).filterMap (·.transition.follow?)).getLast?

variable {net : Network} {s source target : State} {transition : Transition}
  {changes : List Change}

/-! ## 1. One change -/

/-- A state that is known has a rule. -/
theorem ruleOf_of_lt (h : index s < net.size) : ∃ rule, net.ruleOf s = .ok rule := by
  cases e : net.ruleOf s with
  | ok rule => exact ⟨rule, rfl⟩
  | error failure =>
    have unknown := (ruleOf_eq_error_iff.mp e).1
    omega

/-- A state that is not known is an error. -/
theorem ruleOf_of_le (h : net.size ≤ index s) : net.ruleOf s = .error (.unknownState s) :=
  ruleOf_eq_error_iff.mpr ⟨h, rfl⟩

/-- **A transition between known states is added before all others.** -/
theorem addTransition_of_lt (hs : index source < net.size) (ht : index target < net.size) :
    net.addTransition source target transition =
      .ok { net with edges := ⟨index source, index target, transition⟩ :: net.edges } := by
  obtain ⟨_, knows⟩ := ruleOf_of_lt hs
  obtain ⟨_, knows'⟩ := ruleOf_of_lt ht
  unfold addTransition
  rw [knows, knows']
  rfl

/-- **A transition is refused when one of its states is not known**, and the error names the first
    such state. -/
theorem addTransition_of_not_lt (h : ¬ (index source < net.size ∧ index target < net.size)) :
    net.addTransition source target transition =
      .error (.unknownState (if net.size ≤ index source then source else target)) := by
  unfold addTransition
  by_cases hs : net.size ≤ index source
  · rw [ruleOf_of_le hs, if_pos hs]
    rfl
  · have ht : net.size ≤ index target := by omega
    obtain ⟨_, knows⟩ := ruleOf_of_lt (Nat.lt_of_not_le hs)
    rw [knows, ruleOf_of_le ht, if_neg hs]
    rfl

@[simp] theorem rules_change_state (rule : Rule) :
    (net.change (.state rule)).rules = net.rules ++ [rule] := rfl

@[simp] theorem edges_change_state (rule : Rule) :
    (net.change (.state rule)).edges = net.edges := rfl

theorem change_transition_of_lt (h : index source < net.size ∧ index target < net.size) :
    net.change (.transition source target transition) =
      { net with edges := ⟨index source, index target, transition⟩ :: net.edges } := by
  rw [change, addTransition_of_lt h.1 h.2]

theorem change_transition_of_not_lt (h : ¬ (index source < net.size ∧ index target < net.size)) :
    net.change (.transition source target transition) = net := by
  rw [change, addTransition_of_not_lt h]

/-- A transition adds no state. -/
@[simp] theorem rules_change_transition :
    (net.change (.transition source target transition)).rules = net.rules := by
  by_cases h : index source < net.size ∧ index target < net.size
  · rw [change_transition_of_lt h]
  · rw [change_transition_of_not_lt h]

/-! ## 2. Any changes -/

/-- **Every state that is added gets the next index**, and no state is lost. -/
theorem rules_foldl (net : Network) (changes : List Change) :
    (changes.foldl change net).rules = net.rules ++ changes.filterMap Change.rule? := by
  induction changes generalizing net with
  | nil => simp
  | cons c rest ih =>
    rw [List.foldl_cons, ih]
    cases c with
    | state rule => simp [Change.rule?]
    | transition source target transition =>
      rw [rules_change_transition]
      rfl

/-- **The transitions are those that were accepted, the latest first.** -/
theorem edges_foldl (net : Network) (changes : List Change) :
    (changes.foldl change net).edges = (added net.size changes).reverse ++ net.edges := by
  induction changes generalizing net with
  | nil => rfl
  | cons c rest ih =>
    rw [List.foldl_cons, ih]
    cases c with
    | state rule =>
      have size : (net.change (.state rule)).size = net.size + 1 := by simp [Network.size]
      rw [size, edges_change_state, added]
    | transition source target transition =>
      have size : (net.change (.transition source target transition)).size = net.size := by
        simp [Network.size]
      rw [size, added]
      by_cases h : index source < net.size ∧ index target < net.size
      · rw [if_pos h, change_transition_of_lt h]
        simp
      · rw [if_neg h, change_transition_of_not_lt h]

theorem rules_built (changes : List Change) :
    (built changes).rules = changes.filterMap Change.rule? := rules_foldl empty changes

theorem edges_built (changes : List Change) :
    (built changes).edges = (added 0 changes).reverse := by
  rw [built, edges_foldl]
  exact List.append_nil _

/-! ## 3. Follow states -/

/-- The follow state of a known state is that of its first transition that invokes a rule. -/
theorem follow_of_lt (h : index s < net.size) :
    net.follow s =
      match ((net.edges.filter (·.source = index s)).filterMap (·.transition.follow?)).head? with
      | some state => .ok state
      | none => .error (.noRuleTransition s) := by
  obtain ⟨_, knows⟩ := ruleOf_of_lt h
  unfold follow transitions
  rw [knows, List.head?_filterMap]
  simp only [bind, Except.bind, pure, Except.pure, List.findSome?_map]
  rfl

/-- **The follow state of a state is the one of the last transition out of it that invokes a rule**,
    in the order in which the transitions were added. -/
theorem follow_built (changes : List Change) (s : State) :
    (built changes).follow s =
      if (built changes).size ≤ index s then .error (.unknownState s)
      else
        match lastFollow? changes s with
        | some state => .ok state
        | none => .error (.noRuleTransition s) := by
  by_cases h : (built changes).size ≤ index s
  · rw [if_pos h]
    unfold follow transitions
    rw [ruleOf_of_le h]
    rfl
  · rw [if_neg h, follow_of_lt (Nat.lt_of_not_le h), edges_built, List.filter_reverse,
      List.filterMap_reverse, List.head?_reverse]
    rfl

end Network

end StackGraph
