import StackGraph.Slot

/-!
# Structural keys

Each node carries a 64-bit key that is a function of its structure: equal structures have equal
keys, so unequal keys settle that two nodes differ. The words fed into the key of a node are a tag
for its kind and, slot by slot, the return state and the key of the node below.

* `Key.feed`, `Key.finish` -- one word at a time: add, multiply by an odd number, and rotate once
  at the end.
* `Key.frame`, `Key.choice` -- the keys of the two kinds of node that have slots.
-/

namespace StackGraph

/-- A structural key. -/
abbrev Key := UInt64

namespace Key

/-- Takes one more word into a running key. -/
def feed (k word : UInt64) : Key := (k + word) * 0xf1357aea2e62a9c5

/-- Rotates a running key left by 26 bits. -/
def finish (k : Key) : Key := (k <<< 26) ||| (k >>> 38)

/-- The key of a sequence of words. -/
def ofWords (words : List UInt64) : Key := finish (words.foldl feed 0)

/-- The key of a bottom. -/
def bottom : Key := 1

/-- The key of a single frame: its tag 1, the return state, the key below. -/
def frame (state : State) (below : Key) : Key := ofWords [1, state, below]

/-- The words of a slot. A slot with nothing below counts the key 0 there. -/
def wordsOfSlot (s : Slot Key) : List UInt64 := [s.state, s.parent.getD 0]

/-- The key of a choice: its tag 2 and then the words of each slot. -/
def choice (slots : List (Slot Key)) : Key := ofWords (2 :: slots.flatMap wordsOfSlot)

end Key

end StackGraph
