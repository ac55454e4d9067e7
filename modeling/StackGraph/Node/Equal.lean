import StackGraph.Node.Basic

/-!
# Structural equality

Two nodes are equal when they have the same structure, whatever their identities. The comparison
walks both graphs at once and stops early in three ways: the same node equals itself, nodes of
unequal keys differ, and a pair of nodes already found equal is not walked again, so that a shared
node is compared once and not once for each path to it.

* `Node.agree` -- the walk, over the pairs found equal so far.
* `==` -- equality of nodes.
-/

namespace StackGraph

namespace Node

/-- Pairs of identities of nodes that were found equal. -/
abbrev Pairs := List (Nat × Nat)

/-- Whether two nodes must be walked: `some` verdict when identity, keys or a remembered pair
    decide, `none` when the structure has to. -/
def verdict? (a b : Node) (known : Pairs) : Option Bool :=
  if a.same b then some true
  else if a.key ≠ b.key then some false
  else if known.contains (a.id, b.id) then some true
  else none

/-- Decides by `verdict?`, or else by the walk, and remembers the pair of a walk that found no
    difference. -/
def agreeBy (a b : Node) (known : Pairs) (walk : Pairs → Option Pairs) : Option Pairs :=
  match verdict? a b known with
  | some true => some known
  | some false => none
  | none => (walk known).map ((a.id, b.id) :: ·)

mutual

/-- Compares two nodes. The result is `none` when they differ, else the pairs found equal. -/
def agree : Node → Node → Pairs → Option Pairs
  | .bottom i, b, known =>
    agreeBy (.bottom i) b known fun known =>
      match b with
      | .bottom _ => some known
      | _ => none
  | .frame i k state parent, b, known =>
    agreeBy (.frame i k state parent) b known fun known =>
      match b with
      | .frame _ _ state' parent' => if state = state' then agree parent parent' known else none
      | _ => none
  | .choice i k slots, b, known =>
    agreeBy (.choice i k slots) b known fun known =>
      match b with
      | .choice _ _ slots' =>
        if Slot.states slots = Slot.states slots' then agreeSlots slots slots' known else none
      | _ => none

/-- Compares what lies below the slots, from the first slot on. -/
def agreeSlots : List (Slot Node) → List (Slot Node) → Pairs → Option Pairs
  | ⟨_, some p⟩ :: rest, ⟨_, some q⟩ :: rest', known => (agree p q known).bind (agreeSlots rest rest')
  | ⟨_, none⟩ :: rest, ⟨_, none⟩ :: rest', known => agreeSlots rest rest' known
  | [], [], known => some known
  | _, _, _ => none

end

instance : BEq Node := ⟨fun a b => (agree a b []).isSome⟩

theorem beq_def (a b : Node) : (a == b) = (agree a b []).isSome := rfl

/-- The same node decides without a walk. -/
theorem agree_of_same {a b : Node} (h : a.same b = true) (known : Pairs) :
    agree a b known = some known := by
  cases a <;> simp_all [agree, agreeBy, verdict?]

/-- **Every node equals itself.** -/
theorem beq_self (a : Node) : (a == a) = true := by
  rw [beq_def, agree_of_same (same_refl a)]
  rfl

instance : ReflBEq Node := ⟨beq_self _⟩

end Node

end StackGraph
