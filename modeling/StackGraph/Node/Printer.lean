import StackGraph.Node.Basic

/-!
# Nodes as text

A bottom is `$`. A frame is its state, a blank and the text of the node below. A choice lists its
slots between brackets, with a comma and a blank between two of them; a slot with nothing below is
its state alone. So `[3 2 1 $, 9 $, $]` has three slots, of which the first has a chain of two
frames below.

The text is built as a list of characters, `Node.chars`, over which its grammar can be reasoned
about, and `Node.text` is that list as a string.
-/

namespace StackGraph

namespace Node

mutual

/-- The characters of a node. -/
def chars : Node → List Char
  | .bottom _ => ['$']
  | .frame _ _ state parent => state.chars ++ ' ' :: chars parent
  | .choice _ _ slots => '[' :: (charsOfSlots slots ++ [']'])

/-- The characters of the slots of a choice, without the brackets. -/
def charsOfSlots : List (Slot Node) → List Char
  | [] => []
  | ⟨state, none⟩ :: rest => state.chars ++ charsOfRest rest
  | ⟨state, some parent⟩ :: rest => state.chars ++ ' ' :: (chars parent ++ charsOfRest rest)

/-- The characters of the slots after the first, each led in by a comma and a blank. -/
def charsOfRest : List (Slot Node) → List Char
  | [] => []
  | ⟨state, none⟩ :: rest => ',' :: ' ' :: (state.chars ++ charsOfRest rest)
  | ⟨state, some parent⟩ :: rest =>
    ',' :: ' ' :: (state.chars ++ ' ' :: (chars parent ++ charsOfRest rest))

end

/-- A node as text. -/
def text (n : Node) : String := String.ofList n.chars

/-- The slots after the first are written as the first is, after a comma and a blank. -/
theorem charsOfRest_cons (s : Slot Node) (rest : List (Slot Node)) :
    charsOfRest (s :: rest) = ',' :: ' ' :: charsOfSlots (s :: rest) := by
  obtain ⟨state, parent⟩ := s
  cases parent <;> rfl

end Node

end StackGraph
