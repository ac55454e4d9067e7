import StackGraph.Tree.Basic

/-!
# Reading trees

The text of a node is read from the front. What was read is a tree, and what is left of the text is
shorter than the text, so that reading ends.

* `State.read?` -- a state: `$`, or all digits at the front;
* `Tree.read?` -- a tree: `$`, slots between brackets, or a state and a tree after a blank;
* `Tree.ofText?` -- the tree of a whole text.
-/

namespace StackGraph

/-- What is left of a text of which something was read. -/
abbrev Rest (cs : List Char) := {rest : List Char // rest.length < cs.length}

namespace Rest

variable {cs : List Char}

/-- What is left of the end of a text is left of the text. -/
def within {below : List Char} (h : below.length < cs.length) (rest : Rest below) : Rest cs :=
  ⟨rest.1, Nat.lt_trans rest.2 h⟩

/-- What is left after the character `c`, when it comes next. -/
def after? (c : Char) : Rest cs → Option (Rest cs)
  | ⟨[], _⟩ => none
  | ⟨d :: rest, h⟩ => if d = c then some ⟨rest, Nat.lt_of_succ_lt h⟩ else none

end Rest

/-- Reads a state: `$` for the bottom, or all digits at the front of the text. -/
def State.read? : (cs : List Char) → Option (State × Rest cs)
  | [] => none
  | c :: cs =>
    if c = '$' then some (State.bottom, ⟨cs, Nat.lt_succ_self _⟩)
    else if c.isDigit then
      some (UInt64.ofNat (Nat.ofDigitChars 10 (c :: cs.takeWhile Char.isDigit) 0),
        ⟨cs.dropWhile Char.isDigit, Nat.lt_succ_of_le (List.dropWhile_sublist _).length_le⟩)
    else none

namespace Tree

mutual

/-- Reads a tree from the front of a text. -/
def read? (cs : List Char) : Option (Tree × Rest cs) :=
  match cs with
  | [] => none
  | c :: cs =>
    if c = '$' then some (.bottom, ⟨cs, Nat.lt_succ_self _⟩)
    else if c = '[' then do
      let (slots, rest) ← readSlots? cs
      return (.choice slots, rest.within (Nat.lt_succ_self _))
    else do
      let (state, rest) ← State.read? (c :: cs)
      let below ← rest.after? ' '
      let (parent, rest) ← read? below.1
      return (.frame state parent, rest.within below.2)
  termination_by cs.length
  decreasing_by
    · exact Nat.lt_succ_self _
    · exact below.2

/-- Reads slots from the front of a text, up to the closing bracket. -/
def readSlots? (cs : List Char) : Option (List (Slot Tree) × Rest cs) := do
  let (state, rest) ← State.read? cs
  match rest.after? ' ' with
  | none =>
    let (slots, end_) ← readMore? rest.1
    return (⟨state, none⟩ :: slots, end_.within rest.2)
  | some below =>
    let (parent, rest) ← read? below.1
    let (slots, end_) ← readMore? rest.1
    return (⟨state, some parent⟩ :: slots, end_.within (Nat.lt_trans rest.2 below.2))
  termination_by cs.length
  decreasing_by
    · exact rest.2
    · exact below.2
    · exact Nat.lt_trans rest.2 below.2

/-- Reads what follows a slot: the closing bracket, or a comma, a blank and more slots. -/
def readMore? (cs : List Char) : Option (List (Slot Tree) × Rest cs) :=
  match cs with
  | [] => none
  | c :: cs =>
    if c = ']' then some ([], ⟨cs, Nat.lt_succ_self _⟩)
    else if c = ',' then do
      let more ← Rest.after? ' ' ⟨cs, Nat.lt_succ_self _⟩
      let (slots, rest) ← readSlots? more.1
      return (slots, rest.within more.2)
    else none
  termination_by cs.length
  decreasing_by exact more.2

end

/-- The tree of a text, when the text is that of a tree and nothing more. -/
def ofText? (text : String) : Option Tree :=
  match read? text.toList with
  | some (t, rest) => if rest.1 = [] then some t else none
  | none => none

end Tree

end StackGraph
