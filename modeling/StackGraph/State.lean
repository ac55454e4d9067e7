/-!
# Return states

A frame of a call stack is the number of the state to return to. Numbers have 64 bits. The largest
one is set aside for the bottom of a stack, so the bottom sorts after every frame.

* `State.bottom` -- the reserved number; `State.le_bottom` says that it is the largest.
* `State.text` -- how a state is written: `$` for the bottom, else its decimal digits.
-/

namespace StackGraph

/-- The number of a state to return to. -/
abbrev State := UInt64

namespace State

/-- The state that marks the bottom of a stack. It is the largest number and is no frame. -/
def bottom : State := 0xFFFFFFFFFFFFFFFF

theorem toNat_bottom : bottom.toNat = 0x10000000000000000 - 1 := rfl

/-- **The bottom sorts after every other state.** -/
theorem le_bottom (s : State) : s ≤ bottom := by
  rw [UInt64.le_iff_toNat_le, toNat_bottom]
  exact Nat.le_sub_one_of_lt s.toNat_lt

/-- No state comes after the bottom. -/
theorem not_bottom_lt (s : State) : ¬ bottom < s := by
  have h := le_bottom s
  rw [UInt64.le_iff_toNat_le] at h
  rw [UInt64.lt_iff_toNat_lt]
  omega

/-- The characters of a state: `$` for the bottom, else its decimal digits. -/
def chars (s : State) : List Char :=
  if s = bottom then ['$'] else Nat.toDigits 10 s.toNat

/-- A state as text. -/
def text (s : State) : String := String.ofList s.chars

end State

end StackGraph
